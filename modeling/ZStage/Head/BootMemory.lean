import ZStage.Lib.CopySequence
import ZStage.Head.BootSafety

/-!
The memory that head.S prepares for `zstage_main`: the image stands at its run address
with bss cleared, and everything else is as it was at power-on, but for the words that
head.S itself writes in the two copies (`Image.HeadWord`). `BootMemory` says how far the
boot hart has come with it at each of its program points.
-/

namespace ZStage.Head

open ZStage.Lib.ByteMemory ZStage.Lib.CopySequence Relation

variable {b : Nat}

/-- The words that head.S writes beside the copy of the image and bss. -/
def Symbol.written : Symbol → Bool
  | .relocateLottery | .loadStart | .bootArg1 | .bootStatus | .spinAddr => true
  | _ => false

/-- The offsets of the words of `.data` that head.S works with and of the spin word. -/
def Image.HeadOffset (img : Image b) (i : Nat) : Prop :=
  (img.data ≤ i ∧ i < img.data + 5 * b) ∨ (0x1000 ≤ i ∧ i < 0x1000 + b)

def Image.HeadWord (img : Image b) (L x : BitVec (8 * b)) : Prop :=
  ∃ base, img.IsCopy L base ∧ InRange base img.size x ∧ img.HeadOffset (x - base).toNat

/-- The memory `m0` with the image of `L` at its run address and bss cleared up to the
offset `zeroed`. -/
def Image.relocated (img : Image b) (L : BitVec (8 * b)) (m0 : Memory (8 * b)) (zeroed : Nat) :
    Memory (8 * b) := fun x =>
  if InRange img.runAddr img.size x then
    if img.bssStart ≤ (x - img.runAddr).toNat ∧ (x - img.runAddr).toNat < zeroed then 0
    else m0 (L + (x - img.runAddr))
  else m0 x

section Words

variable {img : Image b} {L base x : BitVec (8 * b)}

theorem Image.Apart.headWord_iff (hapart : img.Apart L) (hc : img.IsCopy L base)
    (hx : InRange base img.size x) : img.HeadWord L x ↔ img.HeadOffset (x - base).toNat := by
  constructor
  · rintro ⟨base', hc', hx', hoffset⟩
    rcases eq_or_ne base base' with rfl | hne
    · exact hoffset
    · exact absurd hx' (hapart.disjoint hc hc' hne x hx)
  · exact fun hoffset => ⟨base, hc, hx, hoffset⟩

theorem Image.headWord_of_written (hc : img.IsCopy L base) {s : Symbol} (hs : s.written = true)
    (hx : InRange (img.addr base s) b x) : img.HeadWord L x := by
  have hword : s.isWord = true := by
    cases s <;> first | rfl | cases hs
  refine ⟨base, hc, img.word_inRange base x s hword hx, ?_⟩
  have hfit := img.word_le_size s hword
  have hsize := img.size_lt
  have hlt := (x - base).isLt
  unfold InRange Image.addr at hx
  rw [offset_add _ _ _ (by omega)] at hx
  unfold Image.HeadOffset
  split at hx
  · cases s <;> simp only [Symbol.written, Bool.false_eq_true] at hs <;>
      simp only [Image.offset] at * <;> omega
  · omega

theorem Image.HeadWord.not_mainWrites (h : img.HeadWord L x) : ¬ img.MainWrites L x := by
  rintro ⟨hrun, hload⟩
  obtain ⟨base, hc, hx, hoffset⟩ := h
  rcases eq_or_ne base img.runAddr with rfl | hne
  · obtain ⟨hspin, hdata⟩ := hrun hx
    have h1 := img.realStart_le
    have h2 := img.relocate_lt
    have h3 := img.relocateDone_lt
    unfold Image.HeadOffset at hoffset
    rcases img.xlen with rfl | rfl <;> omega
  · have hbase : base = L := hc.resolve_right hne
    subst hbase
    exact hload hne hx

theorem within_storeWord {own : BitVec (8 * b) → Prop} {a : BitVec (8 * b)}
    (hown : ∀ x, InRange a b x → own x) (m : Memory (8 * b)) (v : BitVec (8 * b)) :
    Within own m (storeWord m a v) :=
  fun x hx => storeWord_of_not_inRange m a x v (fun hin => hx (hown x hin))

theorem within_lottery (m : Memory (8 * b)) (v : Nat) :
    Within (img.HeadWord L) m (storeLE m (img.addr L .relocateLottery) 4 v) :=
  fun x hx => lottery_store_outside v x
    (fun hin => hx (Image.headWord_of_written (Or.inl rfl) rfl hin))

end Words

/-! ### The relocated image -/

section Relocated

variable {img : Image b} {L : BitVec (8 * b)} {m0 m : Memory (8 * b)}

/-- What changes in memory up to the jump into the run copy. -/
def Image.LoadWrites (img : Image b) (L x : BitVec (8 * b)) : Prop :=
  img.HeadWord L x ∨ (L ≠ img.runAddr ∧ InRange img.runAddr img.size x)

/-- The sections in front of bss stand at the run address as they were loaded. -/
theorem Image.relocated_below {zeroed i : Nat} (hi : i < img.bssStart) :
    img.relocated L m0 zeroed (img.runAddr + BitVec.ofNat (8 * b) i) =
      m0 (L + BitVec.ofNat (8 * b) i) := by
  have hsize := img.size_lt
  have h1 := img.bss_lt
  have h2 := img.bss_le
  have hsub : img.runAddr + BitVec.ofNat (8 * b) i - img.runAddr = BitVec.ofNat (8 * b) i := by
    ring
  unfold Image.relocated
  rw [if_pos (inRange_add _ _ _ (by omega) (by omega)), hsub, BitVec.toNat_ofNat,
    Nat.mod_eq_of_lt (by omega), if_neg (by omega)]

theorem Image.relocated_in_place (heq : L = img.runAddr) :
    img.relocated L m0 img.bssStart = m0 := by
  funext x
  unfold Image.relocated
  split
  · rw [if_neg (by omega), heq, add_offset]
  · rfl

theorem Image.within_in_place (heq : L = img.runAddr) (hm : Within (img.LoadWrites L) m0 m) :
    Within (img.HeadWord L) (img.relocated L m0 img.bssStart) m := by
  rw [Image.relocated_in_place heq]
  exact fun x hx => hm x (not_or.mpr ⟨hx, fun h => h.1 heq⟩)

theorem Image.Whole.within (hwhole : img.Whole L m) (hapart : img.Apart L) (hne : L ≠ img.runAddr)
    (hm : Within (img.LoadWrites L) m0 m) :
    Within (img.HeadWord L) (img.relocated L m0 img.bssStart) m := by
  intro x hx
  unfold Image.relocated
  split
  · rename_i hin
    have hfit := img.size_lt
    rw [hapart.headWord_iff (Or.inr rfl) hin] at hx
    have hoffset : BitVec.ofNat (8 * b) (x - img.runAddr).toNat = x - img.runAddr :=
      BitVec.ofNat_toNat _ _ ▸ BitVec.setWidth_eq _
    have hcopied := hwhole (x - img.runAddr).toNat hin (by
      unfold Image.HeadOffset at hx
      have hpos := img.b_pos
      omega)
    rw [hoffset, add_offset] at hcopied
    rw [if_neg (by omega), hcopied]
    -- the byte of the load copy is as it was at power-on
    have hsrc : InRange L img.size (L + (x - img.runAddr)) := by
      rw [← hoffset]
      exact inRange_add _ _ _ hin (by omega)
    have hsub : L + (x - img.runAddr) - L = x - img.runAddr := by
      ring
    apply hm
    rintro (hhead | ⟨_, hrun⟩)
    · rw [hapart.headWord_iff (Or.inl rfl) hsrc, hsub] at hhead
      exact hx hhead
    · exact hapart.disjoint (Or.inr rfl) (Or.inl rfl) hne.symm _ hrun hsrc
  · rename_i hout
    exact hm x (not_or.mpr ⟨hx, fun h => hout h.2⟩)

theorem Image.within_zeroed {z : Nat} (hm : Within (img.HeadWord L) (img.relocated L m0 z) m)
    (hstart : img.bssStart ≤ z) (hfits : z + b ≤ img.size) :
    Within (img.HeadWord L) (img.relocated L m0 (z + b))
      (storeWord m (img.runAddr + BitVec.ofNat (8 * b) z) (0 : BitVec (8 * b))) := by
  intro x hx
  have hsize := img.size_lt
  have hlt := (x - img.runAddr).isLt
  by_cases hword : InRange (img.runAddr + BitVec.ofNat (8 * b) z) b x
  · have hin : InRange img.runAddr img.size x := inRange_mono hfits hsize.le hword
    rw [storeWord_zero m hword]
    unfold InRange at hword
    rw [offset_add _ _ _ (by omega)] at hword
    unfold Image.relocated
    rw [if_pos hin, if_pos]
    split at hword <;> omega
  · rw [storeWord_of_not_inRange _ _ _ _ hword, hm x hx]
    unfold InRange at hword
    rw [offset_add _ _ _ (by omega)] at hword
    unfold Image.relocated
    split
    · congr 1
      apply propext
      split at hword <;> omega
    · rfl

end Relocated

/-! ### Registers that pass through head.S -/

section Frame

variable {img : Image b} {h h' : Hart b} {m m' : Memory (8 * b)}

theorem Hart.relocateBranch_frame (img : Image b) (h : Hart b) :
    (relocateBranch img h).a1 = h.a1 ∧ (relocateBranch img h).mhartid = h.mhartid := by
  unfold relocateBranch relocateCopyToUpper relocateCopyToLower
  simp only [apply_ite Hart.a1, apply_ite Hart.mhartid, ite_self, and_self]

/-- The second boot argument stays in its register up to the call of `zstage_main`. -/
theorem Hart.step_frame (hstep : Hart.step img (h, m) = some (h', m')) :
    h'.mhartid = h.mhartid ∧
      (h.pc ≠ .loadBootArg1 → h.pc ≠ .jumpFdt → h.pc ≠ .secondaryFdt → h'.a1 = h.a1) := by
  by_cases hbranch : h.pc = .relocateLoadStart
  · simp only [Hart.step, Hart.action, hbranch, Action.exec, Option.some.injEq,
      Prod.mk.injEq] at hstep
    obtain ⟨rfl, -⟩ := hstep
    exact ⟨(relocateBranch_frame img _).2, fun _ _ _ => (relocateBranch_frame img _).1⟩
  · unfold Hart.step Hart.action at hstep
    split at hstep <;>
      simp only [Action.exec, Option.some.injEq, Prod.mk.injEq, reduceCtorEq] at hstep
    all_goals obtain ⟨rfl, -⟩ := hstep
    all_goals first
      | exact absurd (by assumption) hbranch
      | simp_all [copyToLowerNext, copyToUpperNext, bssZeroNext, land, apply_ite Hart.a1,
          apply_ite Hart.mhartid]

/-- The jump into the next booting stage, from the load of its address on. -/
def Pc.leaving : Pc b → Bool
  | .jumpRun | .nextStage _ | .secondaryNextStage _ => true
  | _ => false

theorem Hart.relocateBranch_stays (img : Image b) (h : Hart b) :
    (relocateBranch img h).pc.leaving = false := by
  have htarget := (relocateBranch_target img h).2
  simp only [List.mem_cons, List.not_mem_nil, or_false] at htarget
  rcases htarget with hpc | hpc | hpc | hpc <;> rw [hpc] <;> rfl

theorem Hart.copyToLowerNext_stays (h : Hart b) : h.copyToLowerNext.pc.leaving = false := by
  simp only [copyToLowerNext]
  split <;> rfl

theorem Hart.copyToUpperNext_stays (h : Hart b) : h.copyToUpperNext.pc.leaving = false := by
  simp only [copyToUpperNext]
  split <;> rfl

theorem Hart.bssZeroNext_stays (h : Hart b) : h.bssZeroNext.pc.leaving = false := by
  simp only [bssZeroNext]
  split <;> rfl

theorem Hart.land_stays (img : Image b) (h : Hart b) (target : BitVec (8 * b)) :
    (h.land img target).pc.leaving = false := by
  unfold land
  split
  · rfl
  · split <;> rfl

/-- On its way to the next booting stage a hart carries its own number. -/
def Hart.Handed (h : Hart b) : Prop := h.pc.leaving = true → h.a0 = h.mhartid

theorem Hart.Handed.step (hh : h.Handed) (hstep : Hart.step img (h, m) = some (h', m')) :
    h'.Handed := by
  intro hleaving
  by_cases hbranch : h.pc = .relocateLoadStart
  · simp only [Hart.step, Hart.action, hbranch, Action.exec, Option.some.injEq,
      Prod.mk.injEq] at hstep
    obtain ⟨rfl, -⟩ := hstep
    rw [relocateBranch_stays] at hleaving
    cases hleaving
  · unfold Hart.step Hart.action at hstep
    split at hstep <;>
      simp only [Action.exec, Option.some.injEq, Prod.mk.injEq, reduceCtorEq] at hstep
    all_goals obtain ⟨rfl, -⟩ := hstep
    all_goals first
      | exact absurd (by assumption) hbranch
      | (simp only [copyToLowerNext_stays, copyToUpperNext_stays, bssZeroNext_stays, land_stays,
          Bool.false_eq_true] at hleaving; done)
      | (cases hleaving; done)
      | exact hh (by simp_all [Pc.leaving])
      | rfl
      | (split at hleaving <;> simp_all [Pc.leaving])

end Frame

/-! ### The boot hart up to `zstage_main` -/

/-- How far the memory of power-on `m0` has come to what `zstage_main` is called in, with
`arg` the second boot argument of the boot hart. -/
inductive BootMemory (img : Image b) (L : BitVec (8 * b)) (m0 : Memory (8 * b))
    (arg : BitVec (8 * b)) (m : Memory (8 * b)) : Hart b → Prop
  | loading {h : Hart b} (hstage : h.pc.stage ≤ 3) (ha1 : h.a1 = arg)
      (hm : Within (img.LoadWrites L) m0 m) : BootMemory img L m0 arg m h
  | placed {h : Hart b}
      (hpc : h.pc = .relocateDone ∨ h.pc = .doneLoadStart ∨ h.pc = .doneStatus ∨
        h.pc = .doneFence ∨ h.pc = .saveBootArg1)
      (ha1 : h.a1 = arg) (hm : Within (img.HeadWord L) (img.relocated L m0 img.bssStart) m) :
      BootMemory img L m0 arg m h
  | bss {h : Hart b} {j : Nat} (hpc : h.pc = .bssZero)
      (ht1 : h.t1 = img.runAddr + BitVec.ofNat (8 * b) (img.bssStart + b * j))
      (ht2 : h.t2 = img.addr img.runAddr .bssEnd) (hj : img.bssStart + b * j < img.bssEnd)
      (harg : loadWord m (img.addr img.runAddr .bootArg1) = arg)
      (hm : Within (img.HeadWord L) (img.relocated L m0 (img.bssStart + b * j)) m) :
      BootMemory img L m0 arg m h
  | cleared {h : Hart b} (hpc : h.pc = .stackTop ∨ h.pc = .loadBootArg1)
      (harg : loadWord m (img.addr img.runAddr .bootArg1) = arg)
      (hm : Within (img.HeadWord L) (img.relocated L m0 img.bssEnd) m) :
      BootMemory img L m0 arg m h
  | main {h : Hart b} (hpc : h.pc = .main) (ha0 : h.a0 = arg) (ha1 : h.a1 = img.runAddr)
      (ha2 : h.a2 = img.addr img.runAddr .blobTable)
      (hm : Within (img.HeadWord L) (img.relocated L m0 img.bssEnd) m) :
      BootMemory img L m0 arg m h

section Boot

variable {img : Image b} {L N F arg : BitVec (8 * b)} {m0 m m' : Memory (8 * b)} {h h' : Hart b}

/-- What other harts do to the lottery. -/
theorem BootMemory.others (hb : BootMemory img L m0 arg m h) (hm : Within (img.HeadWord L) m m')
    (hkept : (loadWord m' (img.addr img.runAddr .bootArg1) : BitVec (8 * b)) =
      loadWord m (img.addr img.runAddr .bootArg1)) : BootMemory img L m0 arg m' h := by
  cases hb with
  | loading hstage ha1 hwithin =>
      exact .loading hstage ha1 (hwithin.trans (fun x hx => hm x (fun hin => hx (Or.inl hin))))
  | placed hpc ha1 hwithin => exact .placed hpc ha1 (hwithin.trans hm)
  | bss hpc ht1 ht2 hj harg hwithin =>
      exact .bss hpc ht1 ht2 hj (hkept.trans harg) (hwithin.trans hm)
  | cleared hpc harg hwithin => exact .cleared hpc (hkept.trans harg) (hwithin.trans hm)
  | main hpc ha0 ha1 ha2 hwithin => exact .main hpc ha0 ha1 ha2 (hwithin.trans hm)

theorem BootAt.loading_step (hs : BootAt img L N F m h) (hm : MemAt img L N F h.pc.stage m)
    (hstage : h.pc.stage ≤ 3) (hapart : img.Apart L) (hord : L ≠ img.runAddr → img.CopyOrdered L)
    (hstep : Hart.step img (h, m) = some (h', m')) :
    Within (img.LoadWrites L) m m' ∧
      (h'.pc.stage ≤ 3 ∨
        h'.pc = .relocateDone ∧ m' = m ∧ (L = img.runAddr ∨ img.Whole L m)) := by
  have hnext := hs.step hm hapart hord hstep
  have hcopy (hne : L ≠ img.runAddr) {k : Nat} (hk : k < img.words) (v : BitVec (8 * b)) :
      Within (img.LoadWrites L) m
        (storeWord m (img.runAddr + BitVec.ofNat (8 * b) (b * k)) v) :=
    within_storeWord
      (fun x hx => Or.inr ⟨hne, inRange_mono (img.word_fits hk) img.size_lt.le hx⟩) m v
  cases hs with
  | save hpc hbase =>
      simp only [Hart.step, Hart.action, hpc, Action.exec, Hart.la, hbase, Option.some.injEq,
        Prod.mk.injEq] at hstep
      obtain ⟨rfl, rfl⟩ := hstep
      refine ⟨within_storeWord (fun x hx => Or.inl ?_) _ _, Or.inl (by simp [Pc.stage])⟩
      exact Image.headWord_of_written (Or.inl rfl) rfl hx
  | entry hpc hbase =>
      simp only [Hart.step, Hart.action, hpc, Action.exec, Option.some.injEq,
        Prod.mk.injEq] at hstep
      obtain ⟨rfl, rfl⟩ := hstep
      exact ⟨.refl _ _, Or.inl (by simp [Pc.stage])⟩
  | sized hpc hbase ht0 =>
      simp only [Hart.step, Hart.action, hpc, Action.exec, Option.some.injEq,
        Prod.mk.injEq] at hstep
      obtain ⟨rfl, rfl⟩ := hstep
      exact ⟨.refl _ _, Or.inl (by simp [Pc.stage])⟩
  | placed hpc hbase ht0 ht1 =>
      have hstay := hnext.stage_next (by simp [hpc, Pc.stage])
      simp only [Hart.step, Hart.action, hpc, Action.exec, Option.some.injEq,
        Prod.mk.injEq] at hstep
      obtain ⟨rfl, rfl⟩ := hstep
      refine ⟨.refl _ _, hstay.imp_right (fun heq => ⟨?_, rfl, Or.inl heq⟩)⟩
      have hstart := hm.load_start (by simp [hpc, Pc.stage])
      rw [heq] at hstart hbase
      simp [Hart.relocateBranch, Hart.la, hbase, ht0, hstart]
  | hang hpc hbase =>
      simp only [Hart.step, Hart.action, hpc, Action.exec, Option.some.injEq,
        Prod.mk.injEq] at hstep
      obtain ⟨rfl, rfl⟩ := hstep
      exact ⟨.refl _ _, Or.inl hstage⟩
  | lowerLoad hpc hregs =>
      simp only [Hart.step, hregs.load hpc, Action.exec, Option.some.injEq,
        Prod.mk.injEq] at hstep
      obtain ⟨rfl, rfl⟩ := hstep
      exact ⟨.refl _ _, Or.inl (by simp [Pc.stage])⟩
  | lowerStore hpc hregs hk hlt =>
      obtain ⟨next, haction, hbranch⟩ := hregs.store_branch hpc
      simp only [Hart.step, haction, Action.exec, Option.some.injEq, Prod.mk.injEq] at hstep
      obtain ⟨rfl, rfl⟩ := hstep
      refine ⟨hcopy (ne_of_toInt_lt hlt).symm hk _, Or.inl ?_⟩
      rcases hbranch with ⟨_, hpc', _⟩ | ⟨_, hpc', _⟩ <;> simp [hpc', Pc.stage]
  | upperLoad hpc hregs hr hne hcopied =>
      rw [Nat.mul_succ] at hregs
      obtain ⟨next, haction, hload⟩ := hregs.load hpc
      simp only [Hart.step, haction, Action.exec, Option.some.injEq, Prod.mk.injEq] at hstep
      obtain ⟨rfl, rfl⟩ := hstep
      exact ⟨.refl _ _, Or.inl (by simp [(hload _).1, Pc.stage])⟩
  | upperStore hpc hregs hr hne hcopied ht2 =>
      obtain ⟨next, haction, hbranch⟩ := hregs.store_branch hpc
      simp only [Hart.step, haction, Action.exec, Option.some.injEq, Prod.mk.injEq] at hstep
      obtain ⟨rfl, rfl⟩ := hstep
      refine ⟨hcopy hne hr _, Or.inl ?_⟩
      rcases hbranch with ⟨_, hpc', _⟩ | ⟨_, hpc', _⟩ <;> simp [hpc', Pc.stage]
  | jump hpc hbase hne hcopied =>
      simp only [Hart.step, Hart.action, hpc, Action.exec, Hart.land, if_true,
        Option.some.injEq, Prod.mk.injEq] at hstep
      obtain ⟨rfl, rfl⟩ := hstep
      exact ⟨.refl _ _, Or.inr ⟨rfl, rfl, Or.inr hcopied.whole⟩⟩
  | done hpc | loadStart hpc | status hpc | bss hpc | spinStore hpc | jumpRun hpc | gone hpc =>
      simp [hpc, Pc.stage] at hstage
  | run hbase hpc =>
      rcases hpc with hpc | hpc | hpc | hpc | hpc | hpc | hpc | hpc <;>
        simp [hpc, Pc.stage] at hstage

/-- From `_relocate_done` to the jump into the next booting stage, the boot hart executes the
run copy. -/
theorem BootAt.base_run (hs : BootAt img L N F m h) (hstage : 4 ≤ h.pc.stage)
    (hstays : h.pc ≠ .nextStage N) : h.base = img.runAddr := by
  cases hs with
  | done _ hbase | loadStart _ hbase | status _ hbase | run hbase | bss _ hbase
  | spinStore _ hbase | jumpRun _ hbase => exact hbase
  | gone hpc => exact absurd hpc hstays
  | save hpc | entry hpc | sized hpc | placed hpc | hang hpc | lowerLoad hpc | lowerStore hpc
  | upperLoad hpc | upperStore hpc | jump hpc => simp [hpc, Pc.stage] at hstage

theorem BootAt.status_t0 (hs : BootAt img L N F m h) (hpc : h.pc = .doneStatus) :
    h.t0 = img.addr L .bootStatus := by
  cases hs with
  | status _ _ ht0 => exact ht0
  | run _ h => simp [hpc] at h
  | save h | entry h | sized h | placed h | hang h | lowerLoad h | lowerStore h | upperLoad h
  | upperStore h | jump h | done h | loadStart h | bss h | spinStore h | jumpRun h
  | gone h => rw [hpc] at h; cases h

theorem BootAt.spinStore_t0 (hs : BootAt img L N F m h) (hpc : h.pc = .spinStore) :
    h.t0 = img.addr img.runAddr .spinAddr := by
  cases hs with
  | spinStore _ _ ht0 => exact ht0
  | run _ h => simp [hpc] at h
  | save h | entry h | sized h | placed h | hang h | lowerLoad h | lowerStore h | upperLoad h
  | upperStore h | jump h | done h | loadStart h | status h | bss h | jumpRun h
  | gone h => rw [hpc] at h; cases h

/-- With the end of bss below the sign boundary, or bss above it, `_bss_zero` ends at the end
of bss. -/
theorem Hart.bssZeroNext_end {j : Nat}
    (ht1 : h.t1 = img.runAddr + BitVec.ofNat (8 * b) (img.bssStart + b * j))
    (ht2 : h.t2 = img.addr img.runAddr .bssEnd) (hj : img.bssStart + b * j < img.bssEnd)
    (htop : img.runAddr.toInt + img.bssEnd < 2 ^ (8 * b - 1))
    (hpc : h.bssZeroNext.pc = .stackTop) : img.bssStart + b * j + b = img.bssEnd := by
  have hfit := bss_next img hj
  have hnext : h.t1 + BitVec.ofNat (8 * b) b =
      img.runAddr + BitVec.ofNat (8 * b) (img.bssStart + b * j + b) := by
    rw [ht1, add_assoc, ← BitVec.ofNat_add]
  simp only [bssZeroNext, hnext, ht2, Image.addr, Image.offset, BitVec.slt_iff_toInt_lt] at hpc
  rw [toInt_add_ofNat _ _ (by omega), toInt_add_ofNat _ _ htop] at hpc
  split at hpc
  · cases hpc
  · omega

/-- The run copy marks the relocation in the load copy and saves the second boot argument. -/
theorem BootAt.placed_step (hs : BootAt img L N F m h)
    (hpc : h.pc = .relocateDone ∨ h.pc = .doneLoadStart ∨ h.pc = .doneStatus ∨
      h.pc = .doneFence ∨ h.pc = .saveBootArg1) (ha1 : h.a1 = arg)
    (hwithin : Within (img.HeadWord L) (img.relocated L m0 img.bssStart) m)
    (hstep : Hart.step img (h, m) = some (h', m')) : BootMemory img L m0 arg m' h' := by
  have hbase : h.base = img.runAddr := by
    apply hs.base_run <;> rcases hpc with hpc | hpc | hpc | hpc | hpc <;> simp [hpc, Pc.stage]
  rcases hpc with hpc | hpc | hpc | hpc | hpc
  case inl | inr.inl | inr.inr.inr.inl =>
    simp only [Hart.step, Hart.action, hpc, Action.exec, Option.some.injEq,
      Prod.mk.injEq] at hstep
    obtain ⟨rfl, rfl⟩ := hstep
    exact .placed (by simp) ha1 hwithin
  case inr.inr.inl =>
    have ht0 := hs.status_t0 hpc
    simp only [Hart.step, Hart.action, hpc, Action.exec, ht0, Option.some.injEq,
      Prod.mk.injEq] at hstep
    obtain ⟨rfl, rfl⟩ := hstep
    refine .placed (by simp) ha1 (hwithin.trans (within_storeWord (fun x hx => ?_) _ _))
    exact Image.headWord_of_written (Or.inl rfl) rfl hx
  case inr.inr.inr.inr =>
    simp only [Hart.step, Hart.action, hpc, Action.exec, Hart.la, hbase, Option.some.injEq,
      Prod.mk.injEq] at hstep
    obtain ⟨rfl, rfl⟩ := hstep
    refine .bss (j := 0) rfl ?_ rfl ?_ ?_ ?_
    · simp [Image.addr, Image.offset]
    · simpa using img.bss_lt
    · rw [loadWord_storeWord_same _ _ _ img.b_le]
      exact ha1
    · rw [Nat.mul_zero, Nat.add_zero]
      refine hwithin.trans (within_storeWord (fun x hx => ?_) _ _)
      exact Image.headWord_of_written (Or.inr rfl) rfl hx

theorem Hart.bss_step {j : Nat} (hpc : h.pc = .bssZero) (hbase : h.base = img.runAddr)
    (ht1 : h.t1 = img.runAddr + BitVec.ofNat (8 * b) (img.bssStart + b * j))
    (ht2 : h.t2 = img.addr img.runAddr .bssEnd) (hj : img.bssStart + b * j < img.bssEnd)
    (harg : loadWord m (img.addr img.runAddr .bootArg1) = arg)
    (hwithin : Within (img.HeadWord L) (img.relocated L m0 (img.bssStart + b * j)) m)
    (hapart : img.Apart L) (htop : img.runAddr.toInt + img.bssEnd < 2 ^ (8 * b - 1))
    (hstep : Hart.step img (h, m) = some (h', m')) : BootMemory img L m0 arg m' h' := by
  have hfit := bss_next img hj
  have hbss := img.bss_le
  simp only [Hart.step, Hart.action, hpc, Action.exec, ht1, Option.some.injEq,
    Prod.mk.injEq] at hstep
  obtain ⟨rfl, rfl⟩ := hstep
  have hzeroed := Image.within_zeroed hwithin (by omega) (by omega)
  have harg' : loadWord (storeWord m
      (img.runAddr + BitVec.ofNat (8 * b) (img.bssStart + b * j)) (0 : BitVec (8 * b)))
      (img.addr img.runAddr .bootArg1) = arg := by
    rw [loadWord_storeWord_of_disjoint _ _ _ _ img.b_le]
    · exact harg
    · exact bss_disjoint hapart (Or.inr rfl) (by omega) hfit .bootArg1 rfl
  obtain ⟨_, ⟨hpc', ht1', ht2', hlt⟩ | hpc'⟩ := Hart.bssZeroNext_cases hbase ht1 ht2 hj
  · refine .bss hpc' ht1' ht2' hlt harg' ?_
    rw [Nat.mul_succ, ← Nat.add_assoc]
    exact hzeroed
  · refine .cleared (Or.inl hpc') harg' ?_
    rw [Hart.bssZeroNext_end ht1 ht2 hj htop hpc'] at hzeroed
    exact hzeroed

theorem BootMemory.step (hb : BootMemory img L m0 arg m h) (hs : BootAt img L N F m h)
    (hm : MemAt img L N F h.pc.stage m) (hapart : img.Apart L)
    (hord : L ≠ img.runAddr → img.CopyOrdered L)
    (htop : img.runAddr.toInt + img.bssEnd < 2 ^ (8 * b - 1))
    (hstep : Hart.step img (h, m) = some (h', m')) : BootMemory img L m0 arg m' h' := by
  cases hb with
  | loading hstage ha1 hwithin =>
      obtain ⟨hwrites, hnext⟩ := hs.loading_step hm hstage hapart hord hstep
      have ha1' : h'.a1 = arg := by
        refine ((Hart.step_frame hstep).2 ?_ ?_ ?_).trans ha1
        · rintro hpc
          simp [hpc, Pc.stage] at hstage
        · rintro hpc
          simp [hpc, Pc.stage] at hstage
        · exact fun hpc => hs.leaving.1 (Or.inl hpc)
      rcases hnext with hstage' | ⟨hpc', rfl, hplace⟩
      · exact .loading hstage' ha1' (hwithin.trans hwrites)
      · refine .placed (Or.inl hpc') ha1' ?_
        rcases eq_or_ne L img.runAddr with heq | hne
        · exact Image.within_in_place heq hwithin
        · exact (hplace.resolve_left hne).within hapart hne hwithin
  | placed hpc ha1 hwithin => exact hs.placed_step hpc ha1 hwithin hstep
  | bss hpc ht1 ht2 hj harg hwithin =>
      have hbase : h.base = img.runAddr := hs.base_run (by simp [hpc, Pc.stage]) (by simp [hpc])
      exact Hart.bss_step hpc hbase ht1 ht2 hj harg hwithin hapart htop hstep
  | cleared hpc harg hwithin =>
      have hbase : h.base = img.runAddr := by
        apply hs.base_run <;> rcases hpc with hpc | hpc <;> simp [hpc, Pc.stage]
      rcases hpc with hpc | hpc
      · simp only [Hart.step, Hart.action, hpc, Action.exec, Option.some.injEq,
          Prod.mk.injEq] at hstep
        obtain ⟨rfl, rfl⟩ := hstep
        exact .cleared (Or.inr rfl) harg hwithin
      · simp only [Hart.step, Hart.action, hpc, Action.exec, Hart.la, hbase, harg,
          Option.some.injEq, Prod.mk.injEq] at hstep
        obtain ⟨rfl, rfl⟩ := hstep
        exact .main rfl rfl (by simp [Image.addr, Image.offset]) rfl hwithin
  | main hpc => simp [Hart.step, Hart.action, hpc, Action.exec] at hstep

/-- After the return of `zstage_main` the boot hart writes the spin word alone. -/
theorem BootAt.returned_step (hs : BootAt img L N F m h) (hstage : 7 ≤ h.pc.stage)
    (hstep : Hart.step img (h, m) = some (h', m')) : Within (img.HeadWord L) m m' := by
  by_cases hspin : h.pc = .spinStore
  · have ht0 := hs.spinStore_t0 hspin
    simp only [Hart.step, Hart.action, hspin, Action.exec, ht0, Option.some.injEq,
      Prod.mk.injEq] at hstep
    obtain ⟨rfl, rfl⟩ := hstep
    refine within_storeWord (fun x hx => ?_) _ _
    exact Image.headWord_of_written (Or.inr rfl) rfl hx
  · unfold Hart.step Hart.action at hstep
    split at hstep <;>
      simp only [Action.exec, Option.some.injEq, Prod.mk.injEq, reduceCtorEq] at hstep
    all_goals obtain ⟨-, rfl⟩ := hstep
    all_goals first
      | exact .refl _ _
      | simp_all [Pc.stage]

/-- Another hart writes the lottery word alone. -/
theorem LoserAt.writes {stage : Nat} (hs : LoserAt img L N F stage h)
    (hm : MemAt img L N F stage m) (hstep : Hart.step img (h, m) = some (h', m')) :
    m' = m ∨ ∃ v, m' = storeLE m (img.addr L .relocateLottery) 4 v := by
  by_cases hstart : h.pc = .start
  · have hbase : h.base = L := by
      cases hs with
      | start _ hbase => exact hbase
      | reads hpc | waits hpc | leaves hpc | spins hpc | fdt hpc | gone hpc =>
          rw [hstart] at hpc
          cases hpc
    simp only [Hart.step, Hart.action, hstart, Action.exec, Hart.la, hbase, Option.some.injEq,
      Prod.mk.injEq] at hstep
    exact Or.inr ⟨_, hstep.2.symm⟩
  · exact Or.inl (hs.step hm hstart hstep).1

end Boot

end ZStage.Head
