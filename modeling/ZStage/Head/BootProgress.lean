import ZStage.Head.BootMemory

/-!
Every step takes a hart of the boot further. Up to the call of `zstage_main` the boot hart
has a count of what is left (`Hart.toMain`), behind it the program point is enough, and a
hart that has lost comes on as soon as the boot hart has set the flag that it waits for.
-/

namespace ZStage.Head

open ZStage.Lib.ByteMemory ZStage.Lib.CopySequence Relation

variable {b : Nat}

/-- What the boot hart has before it up to the call of `zstage_main`, from the registers of the
loop that it is in. -/
def Hart.toMain (h : Hart b) : Nat :=
  match h.pc with
  | .saveLoadStart => 3 * 2 ^ (8 * b) + 13
  | .relocate => 3 * 2 ^ (8 * b) + 12
  | .relocateSize => 3 * 2 ^ (8 * b) + 11
  | .relocateLoadStart => 3 * 2 ^ (8 * b) + 10
  | .copyToLowerLoad => 2 ^ (8 * b) + 10 + 2 * (h.t1 - h.t0).toNat
  | .copyToLowerStore => 2 ^ (8 * b) + 9 + 2 * (h.t1 - h.t0).toNat
  | .copyToUpperLoad => 2 ^ (8 * b) + 9 + 2 * (h.t1 - h.t0).toNat
  | .copyToUpperStore => 2 ^ (8 * b) + 10 + 2 * (h.t1 - h.t0).toNat
  | .relocateJump _ => 2 ^ (8 * b) + 8
  | .relocateDone => 2 ^ (8 * b) + 7
  | .doneLoadStart => 2 ^ (8 * b) + 6
  | .doneStatus => 2 ^ (8 * b) + 5
  | .doneFence => 2 ^ (8 * b) + 4
  | .saveBootArg1 => 2 ^ (8 * b) + 3
  | .bssZero => 3 + (h.t2 - h.t1).toNat
  | .stackTop => 2
  | .loadBootArg1 => 1
  | _ => 0

def Pc.beforeMain : Pc b → Bool
  | .startHang | .main => false
  | pc => 1 ≤ pc.stage && pc.stage ≤ 5

/-- What the boot hart has before it behind the return of `zstage_main`. -/
def Pc.toNext : Pc b → Nat
  | .spinNextRun => 5
  | .spinStore => 4
  | .spinFence => 3
  | .jumpFdt => 2
  | .jumpRun => 1
  | _ => 0

/-- What a hart that has lost has before it. -/
def Pc.toSecondary : Pc b → Nat
  | .start => 6
  | .waitRunAddr => 5
  | .waitStatus => 4
  | .waitJump _ => 3
  | .secondarySpinLoop => 2
  | .secondaryFdt => 1
  | _ => 0

section Steps

variable {img : Image b} {L N F : BitVec (8 * b)} {m m' : Memory (8 * b)} {h h' : Hart b}

theorem Hart.step_exists (img : Image b) (m : Memory (8 * b)) (hmain : h.pc ≠ .main)
    (hgone : ∀ a, h.pc ≠ .nextStage a ∧ h.pc ≠ .secondaryNextStage a ∧ h.pc ≠ .astray a) :
    ∃ h' m', Hart.step img (h, m) = some (h', m') := by
  unfold Hart.step Hart.action
  split <;> simp_all [Action.exec]

theorem Hart.step_draw (hpc : h.pc = .start) (hstep : Hart.step img (h, m) = some (h', m')) :
    h'.pc = .saveLoadStart ∨ h'.pc = .waitRunAddr := by
  simp only [Hart.step, Hart.action, hpc, Action.exec, Option.some.injEq, Prod.mk.injEq] at hstep
  obtain ⟨rfl, -⟩ := hstep
  split <;> simp

theorem BootAt.stage_pos (hs : BootAt img L N F m h) : 1 ≤ h.pc.stage := by
  cases hs with
  | save hpc | entry hpc | sized hpc | placed hpc | hang hpc | lowerLoad hpc | lowerStore hpc
  | upperLoad hpc | upperStore hpc | jump hpc | done hpc | loadStart hpc | status hpc | bss hpc
  | spinStore hpc | jumpRun hpc | gone hpc => simp [hpc, Pc.stage]
  | run _ hpc =>
      rcases hpc with hpc | hpc | hpc | hpc | hpc | hpc | hpc | hpc <;> simp [hpc, Pc.stage]

/-- Copies that share no byte are let through. -/
theorem Image.Apart.not_touches (hapart : img.Apart L) (hne : L ≠ img.runAddr) :
    ¬ img.Touches L := by
  rintro ⟨x, hrun, hload⟩
  have h1 := img.relocate_lt
  have h2 := img.relocateDone_lt
  have h3 := img.text_lt_data
  have h4 := img.word_le_size .relocateLottery rfl
  have h5 := img.size_lt
  have hin : InRange L img.size x := by
    simp only [Image.offset] at h4
    rcases hload with hx | hx | hx
    · refine inRange_mono ?_ h5.le hx
      simp only [Image.offset]
      omega
    · exact inRange_mono h4 h5.le hx
    · exact inRange_mono (img.word_le_size .bootStatus rfl) h5.le hx
  exact hapart.disjoint (Or.inr rfl) (Or.inl rfl) hne.symm x hrun hin

theorem LowerRegs.left {k : Nat} (hr : LowerRegs img L k h) (hk : b * k ≤ img.size) :
    (h.t1 - h.t0).toNat = img.size - b * k := by
  rw [hr.t1, hr.t0]
  exact offset_sub _ hk img.size_lt

theorem UpperRegs.left {r : Nat} (hr : UpperRegs img L r h) (hle : r ≤ img.size) :
    (h.t1 - h.t0).toNat = r := by
  have hfar := offset_sub img.runAddr (Nat.zero_le r) (Nat.lt_of_le_of_lt hle img.size_lt)
  rw [BitVec.add_zero, Nat.sub_zero] at hfar
  rw [hr.t1, hr.t0]
  exact hfar

theorem bss_left {j : Nat}
    (ht1 : h.t1 = img.runAddr + BitVec.ofNat (8 * b) (img.bssStart + b * j))
    (ht2 : h.t2 = img.addr img.runAddr .bssEnd) (hj : img.bssStart + b * j ≤ img.bssEnd) :
    (h.t2 - h.t1).toNat = img.bssEnd - (img.bssStart + b * j) := by
  rw [ht1, ht2]
  exact offset_sub _ hj (Nat.lt_of_le_of_lt img.bss_le img.size_lt)

theorem Hart.relocateBranch_toMain (hapart : img.Apart L)
    (hord : L ≠ img.runAddr → img.CopyOrdered L)
    (hbase : h.base = L) (ht0 : h.t0 = img.runAddr) (ht1 : h.t1 = BitVec.ofNat (8 * b) img.size)
    (ht2 : h.t2 = L) : (relocateBranch img h).pc.beforeMain = true ∧
      (relocateBranch img h).toMain < 3 * 2 ^ (8 * b) + 10 := by
  have hleft := ((relocateBranch img h).t1 - (relocateBranch img h).t0).isLt
  rcases eq_or_ne L img.runAddr with heq | hne
  · have hpc : (relocateBranch img h).pc = .relocateDone := by
      simp [relocateBranch, ht0, ht2, heq]
    refine ⟨by rw [hpc]; rfl, ?_⟩
    simp only [toMain, hpc]
    omega
  · have hbelow := (hord hne).wordsBelow (hapart.resolve_left hne)
    rcases relocateBranch_cases img L h (hord hne) hbelow hne hbase ht0 ht1 ht2 with
      ⟨_, htouches⟩ | ⟨hpc, _⟩ | ⟨hpc, _⟩
    · exact absurd htouches (hapart.not_touches hne)
    · refine ⟨by rw [hpc]; rfl, ?_⟩
      simp only [toMain, hpc]
      omega
    · refine ⟨by rw [hpc]; rfl, ?_⟩
      simp only [toMain, hpc]
      omega

theorem BootAt.toMain_step (hs : BootAt img L N F m h) (hm : MemAt img L N F h.pc.stage m)
    (hapart : img.Apart L) (hord : L ≠ img.runAddr → img.CopyOrdered L)
    (hbefore : h.pc.beforeMain = true) (hstep : Hart.step img (h, m) = some (h', m')) :
    (h'.pc = .main ∨ h'.pc.beforeMain = true) ∧ h'.toMain < h.toMain := by
  have hpos := img.b_pos
  cases hs with
  | save hpc | entry hpc | sized hpc | done hpc | loadStart hpc | status hpc =>
      simp only [Hart.step, Hart.action, hpc, Action.exec, Option.some.injEq,
        Prod.mk.injEq] at hstep
      obtain ⟨rfl, rfl⟩ := hstep
      simp [Hart.toMain, hpc, Pc.beforeMain, Pc.stage]
  | placed hpc hbase ht0 ht1 =>
      rw [hpc] at hm
      simp only [Hart.step, Hart.action, hpc, Action.exec, Hart.la, hbase,
        hm.load_start le_rfl, Option.some.injEq, Prod.mk.injEq] at hstep
      obtain ⟨rfl, rfl⟩ := hstep
      have hnow : h.toMain = 3 * 2 ^ (8 * b) + 10 := by
        simp only [Hart.toMain, hpc]
      rw [hnow]
      apply And.imp_left Or.inr
      exact Hart.relocateBranch_toMain hapart hord rfl ht0 ht1 rfl
  | hang hpc => simp [hpc, Pc.beforeMain] at hbefore
  | @lowerLoad k hpc hregs hk =>
      simp only [Hart.step, hregs.load hpc, Action.exec, Option.some.injEq,
        Prod.mk.injEq] at hstep
      obtain ⟨rfl, rfl⟩ := hstep
      simp [Hart.toMain, hpc, Pc.beforeMain, Pc.stage]
  | @lowerStore k hpc hregs hk hlt =>
      have hrun := (hord (ne_of_toInt_lt hlt).symm).lower_top (Int.le_of_lt hlt)
      obtain ⟨next, haction, hnext⟩ := hregs.store hrun hpc (img.mul_succ_le hk)
      simp only [Hart.step, haction, Action.exec, Option.some.injEq, Prod.mk.injEq] at hstep
      obtain ⟨rfl, rfl⟩ := hstep
      have hfits := img.word_fits hk
      have hnow := hregs.left (by omega)
      rcases hnext with ⟨hlt, hpc', hregs'⟩ | ⟨_, hpc', _⟩
      · have hthen := hregs'.left (by omega)
        rw [Nat.mul_succ] at hlt hthen
        refine ⟨Or.inr (by rw [hpc']; rfl), ?_⟩
        simp only [Hart.toMain, hpc, hpc', hnow, hthen]
        omega
      · refine ⟨Or.inr (by rw [hpc']; rfl), ?_⟩
        simp only [Hart.toMain, hpc, hpc', hnow]
        omega
  | @upperLoad r hpc hregs hr =>
      have hfits := img.word_fits hr
      have hnow := hregs.left (by rw [Nat.mul_succ]; exact hfits)
      rw [Nat.mul_succ] at hregs hnow
      obtain ⟨next, haction, hnext⟩ := hregs.load hpc
      simp only [Hart.step, haction, Action.exec, Option.some.injEq, Prod.mk.injEq] at hstep
      obtain ⟨rfl, rfl⟩ := hstep
      obtain ⟨hpc', hregs', _⟩ := hnext (loadWord m (L + BitVec.ofNat (8 * b) (b * r)))
      have hthen := hregs'.left (by omega)
      refine ⟨Or.inr (by rw [hpc']; rfl), ?_⟩
      simp only [Hart.toMain, hpc, hpc', hnow, hthen]
      omega
  | @upperStore r hpc hregs hr hne =>
      have hfits := img.word_fits hr
      have hrun := (hord hne).run_top
      obtain ⟨next, haction, hnext⟩ := hregs.store (by omega) hpc
      simp only [Hart.step, haction, Action.exec, Option.some.injEq, Prod.mk.injEq] at hstep
      obtain ⟨rfl, rfl⟩ := hstep
      have hnow := hregs.left (by omega)
      rcases hnext with ⟨_, hpc', hregs'⟩ | ⟨_, hpc', _⟩
      · have hthen := hregs'.left (by omega)
        refine ⟨Or.inr (by rw [hpc']; rfl), ?_⟩
        simp only [Hart.toMain, hpc, hpc', hnow, hthen]
        omega
      · refine ⟨Or.inr (by rw [hpc']; rfl), ?_⟩
        simp only [Hart.toMain, hpc, hpc']
        omega
  | jump hpc =>
      simp only [Hart.step, Hart.action, hpc, Action.exec, Hart.land, if_true,
        Option.some.injEq, Prod.mk.injEq] at hstep
      obtain ⟨rfl, rfl⟩ := hstep
      simp [Hart.toMain, hpc, Pc.beforeMain, Pc.stage]
  | run hbase hpc =>
      rcases hpc with hpc | hpc | hpc | hpc | hpc | hpc | hpc | hpc
      case inl | inr.inr.inl | inr.inr.inr.inl =>
        simp only [Hart.step, Hart.action, hpc, Action.exec, Option.some.injEq,
          Prod.mk.injEq] at hstep
        obtain ⟨rfl, rfl⟩ := hstep
        simp [Hart.toMain, hpc, Pc.beforeMain, Pc.stage]
      case inr.inl =>
        -- all of bss is left, and less than the address space
        have hbss := (h.la img .bssEnd - h.la img .bssStart).isLt
        simp only [Hart.step, Hart.action, hpc, Action.exec, Option.some.injEq,
          Prod.mk.injEq] at hstep
        obtain ⟨rfl, rfl⟩ := hstep
        refine ⟨Or.inr rfl, ?_⟩
        simp only [Hart.toMain, hpc]
        omega
      all_goals simp [hpc, Pc.beforeMain, Pc.stage] at hbefore
  | @bss j hpc hbase ht1 ht2 hj =>
      simp only [Hart.step, Hart.action, hpc, Action.exec, Option.some.injEq,
        Prod.mk.injEq] at hstep
      obtain ⟨rfl, rfl⟩ := hstep
      have hnow := bss_left ht1 ht2 hj.le
      obtain ⟨_, ⟨hpc', ht1', ht2', hlt⟩ | hpc'⟩ := Hart.bssZeroNext_cases hbase ht1 ht2 hj
      · have hthen := bss_left ht1' ht2' hlt.le
        rw [Nat.mul_succ] at hthen hlt
        refine ⟨Or.inr (by rw [hpc']; rfl), ?_⟩
        simp only [Hart.toMain, hpc, hpc', hnow, hthen]
        omega
      · refine ⟨Or.inr (by rw [hpc']; rfl), ?_⟩
        simp only [Hart.toMain, hpc, hpc', hnow]
        omega
  | spinStore hpc | jumpRun hpc | gone hpc => simp [hpc, Pc.beforeMain, Pc.stage] at hbefore

/-- Behind the return of `zstage_main` every step is one to the next booting stage. -/
theorem BootAt.toNext_step (hs : BootAt img L N F m h) (hstage : 7 ≤ h.pc.stage)
    (hstep : Hart.step img (h, m) = some (h', m')) :
    7 ≤ h'.pc.stage ∧ h'.pc.toNext < h.pc.toNext := by
  cases hs with
  | run hbase hpc =>
      rcases hpc with hpc | hpc | hpc | hpc | hpc | hpc | hpc | hpc
      case inr.inr.inr.inr.inr.inl | inr.inr.inr.inr.inr.inr.inl | inr.inr.inr.inr.inr.inr.inr =>
        simp only [Hart.step, Hart.action, hpc, Action.exec, Option.some.injEq,
          Prod.mk.injEq] at hstep
        obtain ⟨rfl, rfl⟩ := hstep
        simp [Pc.toNext, Pc.stage, hpc]
      all_goals simp [hpc, Pc.stage] at hstage
  | spinStore hpc | jumpRun hpc =>
      simp only [Hart.step, Hart.action, hpc, Action.exec, Option.some.injEq,
        Prod.mk.injEq] at hstep
      obtain ⟨rfl, rfl⟩ := hstep
      simp [Pc.toNext, Pc.stage, hpc]
  | gone hpc => simp [Hart.step, Hart.action, hpc, Action.exec] at hstep
  | save hpc | entry hpc | sized hpc | placed hpc | hang hpc | lowerLoad hpc | lowerStore hpc
  | upperLoad hpc | upperStore hpc | jump hpc | done hpc | loadStart hpc | status hpc | bss hpc =>
      simp [hpc, Pc.stage] at hstage

theorem LoserAt.step_exists {stage : Nat} (hs : LoserAt img L N F stage h) (img : Image b)
    (m : Memory (8 * b)) (hgone : h.pc ≠ .secondaryNextStage N) :
    ∃ h' m', Hart.step img (h, m) = some (h', m') := by
  cases hs with
  | gone hpc => exact absurd hpc hgone
  | start hpc | reads hpc | waits hpc | leaves hpc | spins hpc | fdt hpc =>
      apply Hart.step_exists <;> simp [hpc]

theorem LoserAt.toSecondary_step (hs : LoserAt img L N F 8 h) (hs' : LoserAt img L N F 8 h')
    (hm : MemAt img L N F 8 m) (hN : N ≠ 0)
    (hstatus : loadWord m (img.addr L .bootStatus) = (1 : BitVec (8 * b)))
    (hstep : Hart.step img (h, m) = some (h', m')) : h'.pc.toSecondary < h.pc.toSecondary := by
  cases hs with
  | start hpc =>
      rcases Hart.step_draw hpc hstep with hpc' | hpc'
      · have hpath := hs'.not_bootPath
        rw [hpc'] at hpath
        cases hpath
      · simp [hpc, hpc', Pc.toSecondary]
  | reads hpc =>
      simp only [Hart.step, Hart.action, hpc, Action.exec, Option.some.injEq,
        Prod.mk.injEq] at hstep
      obtain ⟨rfl, rfl⟩ := hstep
      split <;> simp [hpc, Pc.toSecondary]
  | waits hpc hbase ht2 =>
      have hdone : ¬ (1 : BitVec (8 * b)).slt 1 = true := by
        simp [BitVec.slt_iff_toInt_lt]
      simp only [Hart.step, Hart.action, hpc, Action.exec, ht2, hstatus, hdone,
        Option.some.injEq, Prod.mk.injEq] at hstep
      obtain ⟨rfl, rfl⟩ := hstep
      simp [hpc, Pc.toSecondary]
  | leaves hpc =>
      simp only [Hart.step, Hart.action, hpc, Action.exec, Option.some.injEq,
        Prod.mk.injEq] at hstep
      obtain ⟨rfl, rfl⟩ := hstep
      unfold Hart.land
      split
      · simp [hpc, Pc.toSecondary]
      · split <;> simp [hpc, Pc.toSecondary]
  | spins hpc hbase =>
      have hspun := hm.run_spun le_rfl
      simp only [Hart.step, Hart.action, hpc, Action.exec, Hart.la, hbase, hspun,
        Option.some.injEq, Prod.mk.injEq] at hstep
      obtain ⟨rfl, rfl⟩ := hstep
      have hset : N ≠ 0#(8 * b) := hN
      rw [if_neg hset]
      simp [hpc, Pc.toSecondary]
  | fdt hpc =>
      simp only [Hart.step, Hart.action, hpc, Action.exec, Option.some.injEq,
        Prod.mk.injEq] at hstep
      obtain ⟨rfl, rfl⟩ := hstep
      simp [hpc, Pc.toSecondary]
  | gone hpc => simp [Hart.step, Hart.action, hpc, Action.exec] at hstep

/-! ### The boot status -/

/-- What the waiting harts are told: the boot status is set from its store on. -/
structure StatusAt (img : Image b) (L : BitVec (8 * b)) (m : Memory (8 * b)) (h : Hart b) :
    Prop where
  value : h.pc = .doneStatus → h.t1 = 1
  set : 5 ≤ h.pc.stage → loadWord m (img.addr L .bootStatus) = (1 : BitVec (8 * b))

theorem StatusAt.of_kept (hs : StatusAt img L m h)
    (hkept : (loadWord m' (img.addr L .bootStatus) : BitVec (8 * b)) =
      loadWord m (img.addr L .bootStatus)) : StatusAt img L m' h :=
  ⟨hs.value, fun hstage => hkept.trans (hs.set hstage)⟩

/-- The store of the boot status is the only way to what is behind it. -/
theorem Hart.step_status (hstep : Hart.step img (h, m) = some (h', m')) :
    (h'.pc = .doneStatus → h.pc = .doneLoadStart) ∧
      (5 ≤ h'.pc.stage → 5 ≤ h.pc.stage ∨ h.pc = .doneStatus) := by
  by_cases hbranch : h.pc = .relocateLoadStart
  · simp only [Hart.step, Hart.action, hbranch, Action.exec, Option.some.injEq,
      Prod.mk.injEq] at hstep
    obtain ⟨rfl, -⟩ := hstep
    have htarget := (relocateBranch_target img { h with t2 := loadWord m (h.la img .loadStart) }).2
    simp only [List.mem_cons, List.not_mem_nil, or_false] at htarget
    rw [hbranch] at htarget
    rcases htarget with hpc | hpc | hpc | hpc <;> simp [hpc, Pc.stage]
  · unfold Hart.step Hart.action at hstep
    split at hstep <;>
      simp only [Action.exec, Option.some.injEq, Prod.mk.injEq, reduceCtorEq] at hstep
    all_goals obtain ⟨rfl, -⟩ := hstep
    all_goals first
      | exact absurd (by assumption) hbranch
      | (simp_all [Pc.stage]; done)
      | (split <;> simp_all [Pc.stage])
      | (simp only [copyToLowerNext, copyToUpperNext, bssZeroNext]
         split <;> simp_all [Pc.stage])
      | (simp only [land]
         split
         · simp_all [Pc.stage]
         · split <;> simp_all [Pc.stage])

theorem BootAt.status_kept (hs : BootAt img L N F m h) (hapart : img.Apart L)
    (hstage : 5 ≤ h.pc.stage) (hstep : Hart.step img (h, m) = some (h', m')) :
    (loadWord m' (img.addr L .bootStatus) : BitVec (8 * b)) =
      loadWord m (img.addr L .bootStatus) := by
  cases hs with
  | run hbase hpc =>
      rcases hpc with hpc | hpc | hpc | hpc | hpc | hpc | hpc | hpc
      case inr.inl =>
        simp only [Hart.step, Hart.action, hpc, Action.exec, Hart.la, hbase, Option.some.injEq,
          Prod.mk.injEq] at hstep
        obtain ⟨rfl, rfl⟩ := hstep
        exact hapart.storeWord_kept (Or.inr rfl) (Or.inl rfl) rfl rfl (fun _ => by decide) _
      all_goals
        simp only [Hart.step, Hart.action, hpc, Action.exec, Option.some.injEq, Prod.mk.injEq,
          reduceCtorEq] at hstep
      all_goals rw [hstep.2]
  | @bss j hpc hbase ht1 ht2 hj =>
      simp only [Hart.step, Hart.action, hpc, Action.exec, ht1, Option.some.injEq,
        Prod.mk.injEq] at hstep
      obtain ⟨rfl, rfl⟩ := hstep
      exact loadWord_storeWord_of_disjoint _ _ _ _ img.b_le
        (bss_disjoint hapart (Or.inl rfl) (by omega) (bss_next img hj) _ rfl)
  | spinStore hpc hbase ht0 =>
      simp only [Hart.step, Hart.action, hpc, Action.exec, ht0, Option.some.injEq,
        Prod.mk.injEq] at hstep
      obtain ⟨rfl, rfl⟩ := hstep
      exact hapart.storeWord_kept (Or.inr rfl) (Or.inl rfl) rfl rfl (fun _ => by decide) _
  | jumpRun hpc =>
      simp only [Hart.step, Hart.action, hpc, Action.exec, Option.some.injEq,
        Prod.mk.injEq] at hstep
      rw [hstep.2]
  | gone hpc => simp [Hart.step, Hart.action, hpc, Action.exec] at hstep
  | save hpc | entry hpc | sized hpc | placed hpc | hang hpc | lowerLoad hpc | lowerStore hpc
  | upperLoad hpc | upperStore hpc | jump hpc | done hpc | loadStart hpc | status hpc =>
      simp [hpc, Pc.stage] at hstage

theorem StatusAt.step (hs : StatusAt img L m h) (hat : BootAt img L N F m h)
    (hapart : img.Apart L) (hstep : Hart.step img (h, m) = some (h', m')) :
    StatusAt img L m' h' := by
  obtain ⟨hfrom, hbehind⟩ := Hart.step_status hstep
  constructor
  · intro hpc'
    have hpc := hfrom hpc'
    simp only [Hart.step, Hart.action, hpc, Action.exec, Option.some.injEq,
      Prod.mk.injEq] at hstep
    obtain ⟨rfl, -⟩ := hstep
    rfl
  · intro hstage'
    rcases hbehind hstage' with hstage | hpc
    · exact (hat.status_kept hapart hstage hstep).trans (hs.set hstage)
    · have ht0 := hat.status_t0 hpc
      simp only [Hart.step, Hart.action, hpc, Action.exec, ht0, hs.value hpc, Option.some.injEq,
        Prod.mk.injEq] at hstep
      obtain ⟨-, rfl⟩ := hstep
      exact loadWord_storeWord_same _ _ _ img.b_le

end Steps

end ZStage.Head
