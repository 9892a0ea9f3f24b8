import Mathlib.Data.Fintype.Fin
import ZStage.Head.BootProtocol

/-!
Safety of the boot protocol, for any number of harts, any time at which each of
them enters `_start` and any interleaving: one hart runs `zstage_main`, no other
hart enters the run copy before the image stands there, none leaves the spin loop
before `zstage_main` has returned, and all leave for the next stage with its FDT.
-/

namespace ZStage.Head

open ZStage.Lib.ByteMemory Relation

variable {b : Nat}

/-! ### The other harts -/

/-- A hart that has not started or has lost, at a stage of the boot hart. -/
inductive LoserAt (img : Image b) (L N F : BitVec (8 * b)) (stage : Nat) : Hart b → Prop
  | start {h : Hart b} (hpc : h.pc = .start) (hbase : h.base = L) : LoserAt img L N F stage h
  | reads {h : Hart b} (hpc : h.pc = .waitRunAddr) (hbase : h.base = L) :
      LoserAt img L N F stage h
  | waits {h : Hart b} (hpc : h.pc = .waitStatus) (hbase : h.base = L)
      (ht2 : h.t2 = img.addr L .bootStatus)
      (ht3 : h.t3 = img.addr img.runAddr .secondarySpinLoop) (hne : L ≠ img.runAddr) :
      LoserAt img L N F stage h
  | leaves {h : Hart b} (hpc : h.pc = .waitJump (img.addr img.runAddr .secondarySpinLoop))
      (hbase : h.base = L) (hne : L ≠ img.runAddr) (hstage : 5 ≤ stage) : LoserAt img L N F stage h
  | spins {h : Hart b} (hpc : h.pc = .secondarySpinLoop) (hbase : h.base = img.runAddr)
      (hstage : L = img.runAddr ∨ 5 ≤ stage) : LoserAt img L N F stage h
  | fdt {h : Hart b} (hpc : h.pc = .secondaryFdt) (hbase : h.base = img.runAddr) (ht1 : h.t1 = N)
      (hstage : 8 ≤ stage) : LoserAt img L N F stage h
  | gone {h : Hart b} (hpc : h.pc = .secondaryNextStage N) (ha1 : h.a1 = F) (hstage : 8 ≤ stage) :
      LoserAt img L N F stage h

section Losers

variable {img : Image b} {L N F : BitVec (8 * b)} {stage : Nat} {m m' : Memory (8 * b)}
  {h h' : Hart b}

theorem LoserAt.mono (hs : LoserAt img L N F stage h) {stage' : Nat} (hle : stage ≤ stage') :
    LoserAt img L N F stage' h := by
  cases hs with
  | start hpc hbase => exact .start hpc hbase
  | reads hpc hbase => exact .reads hpc hbase
  | waits hpc hbase ht2 ht3 hne => exact .waits hpc hbase ht2 ht3 hne
  | leaves hpc hbase hne hstage => exact .leaves hpc hbase hne (hstage.trans hle)
  | spins hpc hbase hstage => exact .spins hpc hbase (hstage.imp_right (fun h => h.trans hle))
  | fdt hpc hbase ht1 hstage => exact .fdt hpc hbase ht1 (hstage.trans hle)
  | gone hpc ha1 hstage => exact .gone hpc ha1 (hstage.trans hle)

/-- The lottery. Only the first hart draws zero, as long as the count does not
come round. -/
theorem lottery_draw {c : Nat} (hpc : h.pc = .start) (hbase : h.base = L)
    (hcount : loadLE m (img.addr L .relocateLottery) 4 = c) (hc : c + 1 < 2 ^ 32)
    (hstep : Hart.step img (h, m) = some (h', m')) :
    m' = storeLE m (img.addr L .relocateLottery) 4 (c + 1) ∧ h'.base = L ∧
      h'.pc = if c = 0 then .saveLoadStart else .waitRunAddr := by
  have hold : (BitVec.ofNat 32 c).signExtend (8 * b) = 0#(8 * b) ↔ c = 0 := by
    have hle : 32 ≤ 8 * b := by
      rcases img.xlen with hb | hb <;> omega
    rw [← BitVec.toInt_inj, BitVec.toInt_signExtend_of_le hle, BitVec.toInt_zero,
      ← BitVec.toInt_zero (w := 32), BitVec.toInt_inj]
    constructor
    · intro heq
      have hnat := congrArg BitVec.toNat heq
      rw [BitVec.toNat_ofNat, Nat.mod_eq_of_lt (by omega)] at hnat
      simpa using hnat
    · rintro rfl
      rfl
  have hnew : (BitVec.ofNat 32 c + 1).toNat = c + 1 := by
    rw [BitVec.toNat_add, BitVec.toNat_ofNat, Nat.mod_eq_of_lt (a := c) (by omega)]
    exact Nat.mod_eq_of_lt hc
  simp only [Hart.step, Hart.action, hpc, Action.exec, Hart.la, hbase, hcount, hnew,
    Option.some.injEq, Prod.mk.injEq] at hstep
  obtain ⟨rfl, rfl⟩ := hstep
  refine ⟨rfl, ?_, ?_⟩
  · split <;> rfl
  · rcases eq_or_ne c 0 with hzero | hpos
    · rw [if_neg (not_not.mpr (hold.mpr hzero)), if_pos hzero]
    · rw [if_pos (fun heq => hpos (hold.mp heq)), if_neg hpos]

theorem LoserAt.step (hs : LoserAt img L N F stage h) (hm : MemAt img L N F stage m)
    (hstarted : h.pc ≠ .start) (hstep : Hart.step img (h, m) = some (h', m')) :
    m' = m ∧ LoserAt img L N F stage h' ∧ h'.pc ≠ .start := by
  cases hs with
  | start hpc => exact absurd hpc hstarted
  | reads hpc hbase =>
      have hstart : img.addr L .start = L := by simp [Image.addr, Image.offset]
      simp only [Hart.step, Hart.action, hpc, Action.exec, Hart.la, hbase, hm.run_addr, hstart,
        Option.some.injEq, Prod.mk.injEq] at hstep
      obtain ⟨rfl, rfl⟩ := hstep
      split
      · rename_i heq
        exact ⟨rfl, .spins rfl heq (Or.inl heq), by simp⟩
      · rename_i hne
        refine ⟨rfl, .waits rfl rfl rfl ?_ hne, by simp⟩
        simp only [Image.addr]
        ring
  | waits hpc hbase ht2 ht3 hne =>
      simp only [Hart.step, Hart.action, hpc, Action.exec, ht2, Option.some.injEq,
        Prod.mk.injEq] at hstep
      obtain ⟨rfl, rfl⟩ := hstep
      split
      · exact ⟨rfl, .waits rfl hbase rfl ht3 hne, by simp⟩
      · rename_i hleave
        refine ⟨rfl, .leaves (by rw [ht3]) hbase hne ?_, by simp⟩
        by_contra hstage
        apply hleave
        rw [hm.status (by omega)]
        rcases img.xlen with hb | hb <;> subst hb <;> decide
  | leaves hpc hbase hne hstage =>
      simp only [Hart.step, Hart.action, hpc, Action.exec, Option.some.injEq,
        Prod.mk.injEq] at hstep
      obtain ⟨rfl, rfl⟩ := hstep
      have hlabel : img.addr img.runAddr .secondarySpinLoop ≠
          img.addr img.runAddr .relocateDone := by
        intro heq
        have h1 := img.relocateDone_lt
        have h2 := img.text_lt_data
        have h3 := img.word_le_size .relocateLottery rfl
        have h4 := img.size_lt
        have hnat := congrArg BitVec.toNat (add_left_cancel heq)
        simp only [Image.offset] at h3 hnat
        rw [BitVec.toNat_ofNat, BitVec.toNat_ofNat, Nat.mod_eq_of_lt (by omega),
          Nat.mod_eq_of_lt (by omega)] at hnat
        omega
      refine ⟨rfl, ?_⟩
      simp only [Hart.land, hlabel, if_false, if_true]
      exact ⟨.spins rfl rfl (Or.inr hstage), by simp⟩
  | spins hpc hbase hstage =>
      simp only [Hart.step, Hart.action, hpc, Action.exec, Hart.la, hbase, Option.some.injEq,
        Prod.mk.injEq] at hstep
      obtain ⟨rfl, rfl⟩ := hstep
      split
      · exact ⟨rfl, .spins rfl rfl hstage, by simp⟩
      · rename_i hspun
        have h8 : 8 ≤ stage := by
          by_contra hlt
          exact hspun (hm.spin_zero (hstage.imp_right (fun h => by omega)) (by omega))
        exact ⟨rfl, .fdt rfl rfl (hm.run_spun h8) h8, by simp⟩
  | fdt hpc hbase ht1 hstage =>
      simp only [Hart.step, Hart.action, hpc, Action.exec, Hart.la, hbase, ht1,
        (hm.run_copy (by omega)).2.2.2, Option.some.injEq, Prod.mk.injEq] at hstep
      obtain ⟨rfl, rfl⟩ := hstep
      exact ⟨rfl, .gone rfl rfl hstage, by simp⟩
  | gone hpc => simp [Hart.step, Hart.action, hpc, Action.exec] at hstep

theorem LoserAt.not_bootPath (hs : LoserAt img L N F stage h) : h.pc.bootPath = false := by
  cases hs with
  | start hpc | reads hpc | waits hpc | leaves hpc | spins hpc | fdt hpc | gone hpc =>
      rw [hpc]
      rfl

theorem BootAt.started (hs : BootAt img L N F m h) : h.pc ≠ .start := by
  cases hs with
  | save hpc | entry hpc | sized hpc | placed hpc | hang hpc | lowerLoad hpc | lowerStore hpc
  | upperLoad hpc | upperStore hpc | jump hpc | done hpc | loadStart hpc | status hpc | bss hpc
  | spinStore hpc | jumpRun hpc | gone hpc => rw [hpc]; simp
  | run hbase hpc => rcases hpc with hpc | hpc | hpc | hpc | hpc | hpc | hpc | hpc <;> simp [hpc]

end Losers

/-! ### The system -/

section System

variable {ι : Type} [DecidableEq ι] [Fintype ι] {img : Image b} {L N F : BitVec (8 * b)}

/-- The number of harts that have drawn. -/
def System.started (s : System b ι) : Nat :=
  (Finset.univ.filter (fun i => (s.harts i).pc ≠ .start)).card

theorem System.started_same (s : System b ι) (i : ι) (h : Hart b) (m : Memory (8 * b))
    (hold : (s.harts i).pc ≠ .start) (hnew : h.pc ≠ .start) :
    (s.set i h m).started = s.started := by
  unfold System.started
  congr 1
  apply Finset.filter_congr
  intro j _
  rcases eq_or_ne j i with rfl | hj
  · simp [hold, hnew]
  · rw [System.set_harts_ne _ _ _ _ _ hj]

theorem System.started_draw (s : System b ι) (i : ι) (h : Hart b) (m : Memory (8 * b))
    (hold : (s.harts i).pc = .start) (hnew : h.pc ≠ .start) :
    (s.set i h m).started = s.started + 1 := by
  unfold System.started
  have hinsert : Finset.univ.filter (fun j => ((s.set i h m).harts j).pc ≠ .start) =
      insert i (Finset.univ.filter (fun j => (s.harts j).pc ≠ .start)) := by
    ext j
    rcases eq_or_ne j i with rfl | hj
    · simp [hnew]
    · simp [System.set_harts_ne _ _ _ _ _ hj, hj]
  rw [hinsert, Finset.card_insert_of_notMem (by simp [hold])]

omit [DecidableEq ι] in
theorem System.started_lt (s : System b ι) (i : ι) (hold : (s.harts i).pc = .start) :
    s.started < Fintype.card ι := by
  apply Finset.card_lt_card
  rw [Finset.ssubset_univ_iff]
  intro heq
  have hin : i ∈ Finset.univ.filter (fun j => (s.harts j).pc ≠ .start) := by
    rw [heq]
    exact Finset.mem_univ i
  simp [hold] at hin

omit [DecidableEq ι] in
theorem System.started_pos (s : System b ι) (i : ι) (hnew : (s.harts i).pc ≠ .start) :
    0 < s.started :=
  Finset.card_pos.mpr ⟨i, by simp [hnew]⟩

/-- The invariant from the draw of the boot hart on. -/
structure BootInv (img : Image b) (L N F : BitVec (8 * b)) (boot : ι) (s : System b ι) : Prop where
  boot_at : BootAt img L N F s.mem (s.harts boot)
  mem_at : MemAt img L N F (s.harts boot).pc.stage s.mem
  losers : ∀ i, i ≠ boot → LoserAt img L N F (s.harts boot).pc.stage (s.harts i)
  lottery : loadLE s.mem (img.addr L .relocateLottery) 4 = s.started

/-- Nobody has drawn. -/
structure BeforeBoot (img : Image b) (L N F : BitVec (8 * b)) (s : System b ι) : Prop where
  mem_at : MemAt img L N F 1 s.mem
  lottery : loadLE s.mem (img.addr L .relocateLottery) 4 = 0
  pc : ∀ i, (s.harts i).pc = .start
  base : ∀ i, (s.harts i).base = L

omit [DecidableEq ι] [Fintype ι] in
theorem PowerOn.before {s : System b ι} (hs : PowerOn img L N F s) : BeforeBoot img L N F s where
  mem_at :=
    { run_addr := hs.run_addr
      image_size := hs.image_size
      next_run := hs.next_run
      next_fdt := hs.next_fdt
      status := fun _ => hs.status
      load_start := fun h => absurd h (by omega)
      load_spin := fun _ => hs.spin
      run_copy := fun h => absurd h (by omega)
      run_spin := fun h => absurd h (by omega)
      run_spun := fun h => absurd h (by omega) }
  lottery := hs.lottery
  pc := hs.pc
  base := hs.base

omit [DecidableEq ι] [Fintype ι] in
/-- The lottery word is none of the words of a stage. -/
theorem MemAt.drawn {stage : Nat} {m : Memory (8 * b)} (hm : MemAt img L N F stage m)
    (hapart : img.Apart L) (v : Nat) :
    MemAt img L N F stage (storeLE m (img.addr L .relocateLottery) 4 v) := by
  apply hm.of_kept
  · intro s hs hne _
    exact hapart.lottery_kept (Or.inl rfl) (img.word_le_size s hs)
      (fun _ => img.words_apart s .relocateLottery hs rfl hne) v
  · intro _ s hs hne _
    exact hapart.lottery_kept (Or.inr rfl) (img.word_le_size s hs)
      (fun _ => img.words_apart s .relocateLottery hs rfl hne) v

omit [DecidableEq ι] [Fintype ι] in
theorem lottery_drawn {m : Memory (8 * b)} {c : Nat} (hc : c < 2 ^ 32) :
    loadLE (storeLE m (img.addr L .relocateLottery) 4 c) (img.addr L .relocateLottery) 4 = c := by
  have hb := img.b_le
  have hfour : 4 ≤ b := by
    rcases img.xlen with hb | hb <;> omega
  exact loadLE_storeLE_same _ _ _ _ (by omega) (by omega)

theorem BeforeBoot.step {s t : System b ι} (hs : BeforeBoot img L N F s) (hapart : img.Apart L)
    (hstep : BootStep img L s t) :
    ∃ boot, BootInv img L N F boot t ∧ (t.harts boot).pc.stage = 1 := by
  cases hstep with
  | @hart i h m hstep =>
      obtain ⟨rfl, hbase, hpc⟩ := lottery_draw (hs.pc i) (hs.base i) hs.lottery (by decide) hstep
      have hnone : s.started = 0 := by
        simp [System.started, hs.pc]
      rw [if_pos rfl] at hpc
      refine ⟨i, ⟨?_, ?_, ?_, ?_⟩, by simp [hpc, Pc.stage]⟩
      · simpa using BootAt.save hpc hbase
      · simpa [hpc, Pc.stage] using hs.mem_at.drawn hapart _
      · intro j hj
        rw [System.set_harts_ne _ _ _ _ _ hj]
        exact .start (hs.pc j) (hs.base j)
      · rw [System.started_draw _ _ _ _ (hs.pc i) (by simp [hpc]), hnone]
        exact lottery_drawn (by decide)
  | @mainStore i m hpc => rw [hs.pc i] at hpc; cases hpc
  | @mainReturn i k h hcall => simp [Hart.action, hs.pc i] at hcall

omit [DecidableEq ι] [Fintype ι] in
/-- The boot hart calls `zstage_main` from the run copy. -/
theorem BootAt.base_of_main {m : Memory (8 * b)} {h : Hart b} (hs : BootAt img L N F m h)
    (hpc : h.pc = .main) : h.base = img.runAddr := by
  cases hs with
  | run hbase => exact hbase
  | save h | entry h | sized h | placed h | hang h | lowerLoad h | lowerStore h
  | upperLoad h | upperStore h | jump h | done h | loadStart h | status h | bss h
  | spinStore h | jumpRun h | gone h => rw [hpc] at h; cases h

theorem BootInv.loser_step {boot i : ι} {s : System b ι} (hs : BootInv img L N F boot s)
    (hi : i ≠ boot) (hcard : Fintype.card ι < 2 ^ 32) (hapart : img.Apart L) {h : Hart b}
    {m : Memory (8 * b)} (hstep : Hart.step img (s.harts i, s.mem) = some (h, m)) :
    BootInv img L N F boot (s.set i h m) := by
  have hboot : (s.set i h m).harts boot = s.harts boot :=
    System.set_harts_ne _ _ _ _ _ hi.symm
  have hothers (hloser : LoserAt img L N F (s.harts boot).pc.stage h) (j : ι)
      (hj : j ≠ boot) : LoserAt img L N F (s.harts boot).pc.stage ((s.set i h m).harts j) := by
    rcases eq_or_ne j i with rfl | hji
    · simpa using hloser
    · rw [System.set_harts_ne _ _ _ _ _ hji]
      exact hs.losers j hj
  by_cases hstart : (s.harts i).pc = .start
  · have hlt := s.started_lt i hstart
    have hpos := s.started_pos boot hs.boot_at.started
    have hbase : (s.harts i).base = L := by
      cases hs.losers i hi with
      | start _ hbase => exact hbase
      | reads hpc | waits hpc | leaves hpc | spins hpc | fdt hpc | gone hpc =>
          rw [hstart] at hpc
          cases hpc
    obtain ⟨rfl, hbase', hpc⟩ := lottery_draw hstart hbase hs.lottery (by omega) hstep
    rw [if_neg (by omega)] at hpc
    refine ⟨?_, ?_, ?_, ?_⟩
    · rw [hboot]
      exact hs.boot_at.lottery hapart _
    · rw [hboot]
      exact hs.mem_at.drawn hapart _
    · rw [hboot]
      exact hothers (.reads hpc hbase')
    · rw [System.started_draw _ _ _ _ hstart (by simp [hpc])]
      exact lottery_drawn (by omega)
  · obtain ⟨rfl, hloser, hnew⟩ := (hs.losers i hi).step hs.mem_at hstart hstep
    refine ⟨by rw [hboot]; exact hs.boot_at, by rw [hboot]; exact hs.mem_at, ?_, ?_⟩
    · rw [hboot]
      exact hothers hloser
    · rw [System.started_same _ _ _ _ hstart hnew]
      exact hs.lottery

/-- Every step keeps the boot hart and the invariant. -/
theorem BootInv.step {boot : ι} {s t : System b ι} (hs : BootInv img L N F boot s)
    (hspin : img.noSpin = true) (hcard : Fintype.card ι < 2 ^ 32) (hapart : img.Apart L)
    (hord : L ≠ img.runAddr → img.CopyOrdered L) (hstep : BootStep img L s t) :
    BootInv img L N F boot t ∧ (s.harts boot).pc.stage ≤ (t.harts boot).pc.stage := by
  have hmain (i : ι) (hpc : (s.harts i).pc = .main) : i = boot := by
    by_contra hi
    have hnot := (hs.losers i hi).not_bootPath
    rw [hpc] at hnot
    cases hnot
  cases hstep with
  | @hart i h m hstep =>
      rcases eq_or_ne i boot with rfl | hi
      · have hnext := hs.boot_at.step hs.mem_at hapart hord hstep
        refine ⟨⟨by simpa using hnext.boot_at, by simpa using hnext.mem_at, ?_, ?_⟩,
          by simpa using hnext.stage_le⟩
        · intro j hj
          rw [System.set_harts_same, System.set_harts_ne _ _ _ _ _ hj]
          exact (hs.losers j hj).mono hnext.stage_le
        · rw [System.started_same _ _ _ _ hs.boot_at.started hnext.boot_at.started]
          exact hnext.count.trans hs.lottery
      · refine ⟨hs.loser_step hi hcard hapart hstep, ?_⟩
        rw [System.set_harts_ne _ _ _ _ _ hi.symm]
  | @mainStore i m hpc hm =>
      obtain rfl := hmain i hpc
      have hsame : (s.set i (s.harts i) m).harts = s.harts := Function.update_eq_self i s.harts
      have hkept (base : BitVec (8 * b)) (hc : img.IsCopy L base) (w : Symbol)
          (hw : w.isWord = true) :
          (loadWord m (img.addr base w) : BitVec (8 * b)) = loadWord s.mem (img.addr base w) :=
        loadWord_of_unchanged img.b_le
          (fun x hx => hm x (Image.MainWrites.kept hapart hc hw x hx))
      have hbase := hs.boot_at.base_of_main hpc
      refine ⟨⟨?_, ?_, ?_, ?_⟩, by rw [hsame]⟩
      · rw [hsame]
        exact .run hbase (by simp [hpc])
      · rw [hsame]
        exact hs.mem_at.of_kept (fun w hw _ _ => hkept L (Or.inl rfl) w hw)
          (fun _ w hw _ _ => hkept img.runAddr (Or.inr rfl) w hw)
      · rw [hsame]
        exact hs.losers
      · rw [System.started_same _ _ _ _ hs.boot_at.started hs.boot_at.started]
        refine (lottery_count_kept ?_).trans hs.lottery
        exact fun x hx => hm x (Image.MainWrites.kept hapart (Or.inl rfl) rfl x hx)
  | @mainReturn i k h hcall hbase hpc hsp hid =>
      have hat := Hart.main_of_call hcall
      obtain rfl := hmain i hat
      simp only [Hart.action, hat, hspin, if_true, Action.call.injEq] at hcall
      subst hcall
      have hstage : MemAt img L N F 5 s.mem := by
        have hm := hs.mem_at
        rw [hat] at hm
        exact hm
      have hle : (s.harts i).pc.stage ≤ h.pc.stage := by
        simp [hpc, hat, Pc.stage]
      have hrun := hs.boot_at.base_of_main hat
      refine ⟨⟨?_, ?_, ?_, ?_⟩, by simpa using hle⟩
      · simpa using BootAt.run (hbase.trans hrun) (by simp [hpc])
      · have hlater : MemAt img L N F 7 s.mem := hstage.later (by omega) (by omega) (by omega)
        simpa [hpc, Pc.stage] using hlater
      · intro j hj
        rw [System.set_harts_same, System.set_harts_ne _ _ _ _ _ hj]
        exact (hs.losers j hj).mono hle
      · rw [System.started_same _ _ _ _ hs.boot_at.started (by simp [hpc])]
        exact hs.lottery

/-- Once a hart is the boot hart it stays the boot hart. -/
theorem BootInv.reach {boot : ι} {s t : System b ι} (hs : BootInv img L N F boot s)
    (hspin : img.noSpin = true) (hcard : Fintype.card ι < 2 ^ 32) (hapart : img.Apart L)
    (hord : L ≠ img.runAddr → img.CopyOrdered L) (hreach : ReflTransGen (BootStep img L) s t) :
    BootInv img L N F boot t := by
  induction hreach with
  | refl => exact hs
  | tail _ hstep ih => exact (ih.step hspin hcard hapart hord hstep).1

theorem PowerOn.reach {s0 s : System b ι} (h0 : PowerOn img L N F s0)
    (hspin : img.noSpin = true) (hcard : Fintype.card ι < 2 ^ 32) (hapart : img.Apart L)
    (hord : L ≠ img.runAddr → img.CopyOrdered L) (hreach : ReflTransGen (BootStep img L) s0 s) :
    BeforeBoot img L N F s ∨ ∃ boot, BootInv img L N F boot s := by
  induction hreach with
  | refl => exact Or.inl h0.before
  | tail _ hstep ih =>
      rcases ih with hbefore | ⟨boot, hinv⟩
      · obtain ⟨boot, hinv, _⟩ := hbefore.step hapart hstep
        exact Or.inr ⟨boot, hinv⟩
      · exact Or.inr ⟨boot, (hinv.step hspin hcard hapart hord hstep).1⟩

omit [DecidableEq ι] in
theorem BootInv.eq_boot {boot i : ι} {s : System b ι} (hs : BootInv img L N F boot s)
    (hpath : (s.harts i).pc.bootPath = true) : i = boot := by
  by_contra hi
  rw [(hs.losers i hi).not_bootPath] at hpath
  cases hpath

omit [DecidableEq ι] [Fintype ι] in
/-- The boot hart passes from stage 3 on only with the image copied. -/
theorem BootAt.whole {m : Memory (8 * b)} {h : Hart b} (hs : BootAt img L N F m h)
    (hstage : h.pc.stage = 3) : img.Whole L m := by
  cases hs with
  | jump _ _ _ hcopied => exact hcopied.whole
  | save hpc | entry hpc | sized hpc | placed hpc | hang hpc | lowerLoad hpc | lowerStore hpc
  | upperLoad hpc | upperStore hpc | done hpc | loadStart hpc | status hpc | bss hpc
  | spinStore hpc | jumpRun hpc | gone hpc => simp [hpc, Pc.stage] at hstage
  | run _ hpc =>
      rcases hpc with hpc | hpc | hpc | hpc | hpc | hpc | hpc | hpc <;>
        simp [hpc, Pc.stage] at hstage

theorem BootInv.not_whole_step {boot : ι} {s t : System b ι} (hs : BootInv img L N F boot s)
    (hne : L ≠ img.runAddr) (hle : (s.harts boot).pc.stage ≤ 3) (hnot : ¬ img.Whole L s.mem)
    (hapart : img.Apart L) (hord : L ≠ img.runAddr → img.CopyOrdered L)
    (hstep : BootStep img L s t) : (t.harts boot).pc.stage ≤ 3 := by
  have hthree : (s.harts boot).pc.stage ≠ 3 := fun h => hnot (hs.boot_at.whole h)
  have hmain (i : ι) (hpc : (s.harts i).pc = .main) : False := by
    have hi := hs.eq_boot (i := i) (by rw [hpc]; rfl)
    rw [← hi, hpc] at hle
    simp [Pc.stage] at hle
  cases hstep with
  | @hart i h m hstep =>
      rcases eq_or_ne boot i with rfl | hi
      · rw [System.set_harts_same]
        have hnext := hs.boot_at.step hs.mem_at hapart hord hstep
        exact (hnext.stage_next (by omega)).resolve_right hne
      · rw [System.set_harts_ne _ _ _ _ _ hi]
        exact hle
  | @mainStore i m hpc => exact (hmain i hpc).elim
  | @mainReturn i k h hcall => exact (hmain i (Hart.main_of_call hcall)).elim

/-- A run up to a state, none of whose earlier states has the whole image at the
run address. -/
def NotWholeRun (img : Image b) (L : BitVec (8 * b)) : System b ι → System b ι → Prop :=
  ReflTransGen (fun u v => BootStep img L u v ∧ ¬ img.Whole L u.mem)

theorem PowerOn.not_whole_reach {s0 s : System b ι} (h0 : PowerOn img L N F s0)
    (hne : L ≠ img.runAddr) (hspin : img.noSpin = true) (hcard : Fintype.card ι < 2 ^ 32)
    (hapart : img.Apart L) (hord : L ≠ img.runAddr → img.CopyOrdered L)
    (hreach : NotWholeRun img L s0 s) :
    BeforeBoot img L N F s ∨
      ∃ boot, BootInv img L N F boot s ∧ (s.harts boot).pc.stage ≤ 3 := by
  induction hreach with
  | refl => exact Or.inl h0.before
  | tail _ hstep ih =>
      obtain ⟨hstep, hnot⟩ := hstep
      rcases ih with hbefore | ⟨boot, hinv, hle⟩
      · obtain ⟨boot, hinv, hone⟩ := hbefore.step hapart hstep
        exact Or.inr ⟨boot, hinv, by omega⟩
      · exact Or.inr ⟨boot, (hinv.step hspin hcard hapart hord hstep).1,
          hinv.not_whole_step hne hle hnot hapart hord hstep⟩

/-- What a state of the boot owes: a hart is past the spin loop only when
`zstage_main` has returned on another one, a hart leaves for the next stage at
its run address and with its FDT, and no hart jumps anywhere else. -/
structure BootSafe (N F : BitVec (8 * b)) (s : System b ι) : Prop where
  main_first : ∀ i, ((s.harts i).pc = .secondaryFdt ∨ ∃ a, (s.harts i).pc = .secondaryNextStage a) →
    ∃ j, j ≠ i ∧ (s.harts j).pc.mainReturned = true
  next_stage : ∀ i a, ((s.harts i).pc = .nextStage a ∨ (s.harts i).pc = .secondaryNextStage a) →
    a = N ∧ (s.harts i).a1 = F
  known : ∀ i a, (s.harts i).pc ≠ .astray a

omit [DecidableEq ι] [Fintype ι] in
theorem BeforeBoot.safe {s : System b ι} (hs : BeforeBoot img L N F s) : BootSafe N F s := by
  constructor
  · intro i h
    simp [hs.pc i] at h
  · intro i a h
    simp [hs.pc i] at h
  · intro i a h
    rw [hs.pc i] at h
    cases h

omit [DecidableEq ι] [Fintype ι] in
theorem LoserAt.leaving {stage : Nat} {h : Hart b} (hs : LoserAt img L N F stage h) :
    ((h.pc = .secondaryFdt ∨ ∃ a, h.pc = .secondaryNextStage a) → 8 ≤ stage) ∧
      (∀ a, (h.pc = .nextStage a ∨ h.pc = .secondaryNextStage a) → a = N ∧ h.a1 = F) ∧
      ∀ a, h.pc ≠ .astray a := by
  cases hs with
  | start hpc | reads hpc | waits hpc | leaves hpc | spins hpc => simp [hpc]
  | fdt hpc _ _ hstage => simp [hpc, hstage]
  | gone hpc ha1 hstage =>
      refine ⟨fun _ => hstage, ?_, by simp [hpc]⟩
      intro a ha
      simp only [hpc, Pc.secondaryNextStage.injEq, reduceCtorEq, false_or] at ha
      exact ⟨ha.symm, ha1⟩

omit [DecidableEq ι] [Fintype ι] in
theorem BootAt.leaving {m : Memory (8 * b)} {h : Hart b} (hs : BootAt img L N F m h) :
    ¬ (h.pc = .secondaryFdt ∨ ∃ a, h.pc = .secondaryNextStage a) ∧
      (∀ a, (h.pc = .nextStage a ∨ h.pc = .secondaryNextStage a) → a = N ∧ h.a1 = F) ∧
      ∀ a, h.pc ≠ .astray a := by
  cases hs with
  | save hpc | entry hpc | sized hpc | placed hpc | hang hpc | lowerLoad hpc | lowerStore hpc
  | upperLoad hpc | upperStore hpc | jump hpc | done hpc | loadStart hpc | status hpc | bss hpc
  | spinStore hpc | jumpRun hpc => simp [hpc]
  | run _ hpc => rcases hpc with hpc | hpc | hpc | hpc | hpc | hpc | hpc | hpc <;> simp [hpc]
  | gone hpc ha1 =>
      refine ⟨by simp [hpc], ?_, by simp [hpc]⟩
      intro a ha
      simp only [hpc, Pc.nextStage.injEq, reduceCtorEq, or_false] at ha
      exact ⟨ha.symm, ha1⟩

omit [DecidableEq ι] in
theorem BootInv.safe {boot : ι} {s : System b ι} (hs : BootInv img L N F boot s) :
    BootSafe N F s := by
  constructor
  · intro i hleft
    have hi : i ≠ boot := by
      rintro rfl
      exact hs.boot_at.leaving.1 hleft
    refine ⟨boot, hi.symm, ?_⟩
    have hstage := (hs.losers i hi).leaving.1 hleft
    simp only [Pc.mainReturned, decide_eq_true_eq]
    omega
  · intro i
    rcases eq_or_ne i boot with rfl | hi
    · exact hs.boot_at.leaving.2.1
    · exact (hs.losers i hi).leaving.2.1
  · intro i
    rcases eq_or_ne i boot with rfl | hi
    · exact hs.boot_at.leaving.2.2
    · exact (hs.losers i hi).leaving.2.2

omit [DecidableEq ι] [Fintype ι] in
theorem BootAt.base_of_hang {m : Memory (8 * b)} {h : Hart b} (hs : BootAt img L N F m h)
    (hpath : h.pc.bootPath = false) : h.base = L := by
  cases hs with
  | hang _ hbase => exact hbase
  | save hpc | entry hpc | sized hpc | placed hpc | lowerLoad hpc | lowerStore hpc
  | upperLoad hpc | upperStore hpc | jump hpc | done hpc | loadStart hpc | status hpc
  | bss hpc | spinStore hpc | jumpRun hpc | gone hpc => simp [hpc, Pc.bootPath, Pc.stage] at hpath
  | run _ hpc =>
      rcases hpc with hpc | hpc | hpc | hpc | hpc | hpc | hpc | hpc <;>
        simp [hpc, Pc.bootPath, Pc.stage] at hpath

omit [DecidableEq ι] [Fintype ι] in
/-- A loser is in the run copy of a relocated image only behind the boot status. -/
theorem LoserAt.stage_of_run {stage : Nat} {h : Hart b} (hs : LoserAt img L N F stage h)
    (hne : L ≠ img.runAddr) (hrun : h.base = img.runAddr) : 5 ≤ stage := by
  cases hs with
  | start _ hbase | reads _ hbase | waits _ hbase | leaves _ hbase =>
      exact absurd (hbase.symm.trans hrun) hne
  | spins _ _ hstage => exact hstage.resolve_left hne
  | fdt _ _ _ hstage | gone _ _ hstage => omega

omit [DecidableEq ι] in
/-- Off the boot path, a hart in the run copy is another one than the boot hart, and the boot
status is stored. -/
theorem BootInv.stage_of_run {boot : ι} {s : System b ι} (hs : BootInv img L N F boot s)
    (hne : L ≠ img.runAddr) {i : ι} (hpath : (s.harts i).pc.bootPath = false)
    (hrun : (s.harts i).base = img.runAddr) : i ≠ boot ∧ 5 ≤ (s.harts boot).pc.stage := by
  have hi : i ≠ boot := by
    rintro rfl
    exact hne ((hs.boot_at.base_of_hang hpath).symm.trans hrun)
  exact ⟨hi, (hs.losers i hi).stage_of_run hne hrun⟩

/-- What a state of a boot that relocates owes besides: the whole image stands at the run
address when a hart is about to jump there, and a hart off the boot path is in the run copy
only when another one has jumped there and stored the boot status. -/
structure EnteredCopied (img : Image b) (L : BitVec (8 * b)) (s : System b ι) : Prop where
  copied : ∀ j a, (s.harts j).pc = .relocateJump a → img.Whole L s.mem
  status_first : ∀ i, (s.harts i).pc.bootPath = false → (s.harts i).base = img.runAddr →
    ∃ j, j ≠ i ∧ (s.harts j).pc.statusStored = true

omit [DecidableEq ι] [Fintype ι] in
theorem BeforeBoot.enteredCopied {s : System b ι} (hs : BeforeBoot img L N F s)
    (hne : L ≠ img.runAddr) : EnteredCopied img L s where
  copied j a hpc := by
    rw [hs.pc j] at hpc
    cases hpc
  status_first i _ hrun := absurd ((hs.base i).symm.trans hrun) hne

omit [DecidableEq ι] in
theorem BootInv.enteredCopied {boot : ι} {s : System b ι} (hs : BootInv img L N F boot s)
    (hne : L ≠ img.runAddr) : EnteredCopied img L s where
  copied j a hpc := by
    obtain rfl := hs.eq_boot (i := j) (by rw [hpc]; rfl)
    exact hs.boot_at.whole (by rw [hpc]; rfl)
  status_first i hpath hrun := by
    obtain ⟨hi, hstage⟩ := hs.stage_of_run hne hpath hrun
    exact ⟨boot, hi.symm, by simpa [Pc.statusStored] using hstage⟩

/-- Boot protocol safety, with the image loaded where it runs, or apart from there and
with a run copy that does not cross the sign boundary. One hart ever takes the path
of the boot hart; no hart off that path is in the run copy before the whole image
has stood there, nor before the boot hart has come past the copy, the jump and the store
of the boot status; and every reached state is safe. -/
theorem boot_protocol_safe (img : Image b) (L N F : BitVec (8 * b)) (s0 : System b ι)
    (hspin : img.noSpin = true) (hcard : Fintype.card ι < 2 ^ 32) (hapart : img.Apart L)
    (hord : L = img.runAddr ∨ img.runAddr.toInt + img.size ≤ 2 ^ (8 * b - 1))
    (h0 : PowerOn img L N F s0) :
    (∀ s t, ReflTransGen (BootStep img L) s0 s → ReflTransGen (BootStep img L) s t →
      ∀ i j, (s.harts i).pc.bootPath = true → (t.harts j).pc.bootPath = true → i = j) ∧
    (L ≠ img.runAddr → ∀ s, NotWholeRun img L s0 s →
      ∀ i, (s.harts i).pc.bootPath = false → (s.harts i).base ≠ img.runAddr) ∧
    (L ≠ img.runAddr → ∀ s, ReflTransGen (BootStep img L) s0 s → EnteredCopied img L s) ∧
    (∀ s, ReflTransGen (BootStep img L) s0 s → BootSafe N F s) := by
  have hord' (hne : L ≠ img.runAddr) : img.CopyOrdered L :=
    Image.copyOrdered_of_disjoint (hord.resolve_left hne) (hapart.resolve_left hne)
  refine ⟨?_, ?_, ?_, ?_⟩
  · intro s t hs ht i j hi hj
    rcases h0.reach hspin hcard hapart hord' hs with hbefore | ⟨boot, hinv⟩
    · rw [hbefore.pc i] at hi
      cases hi
    · have hnext := hinv.reach hspin hcard hapart hord' ht
      exact (hinv.eq_boot hi).trans (hnext.eq_boot hj).symm
  · intro hne s hs i hpath hrun
    rcases h0.not_whole_reach hne hspin hcard hapart hord' hs with hbefore | ⟨boot, hinv, hle⟩
    · exact hne ((hbefore.base i).symm.trans hrun)
    · have hstage := (hinv.stage_of_run hne hpath hrun).2
      omega
  · intro hne s hs
    rcases h0.reach hspin hcard hapart hord' hs with hbefore | ⟨boot, hinv⟩
    · exact hbefore.enteredCopied hne
    · exact hinv.enteredCopied hne
  · intro s hs
    rcases h0.reach hspin hcard hapart hord' hs with hbefore | ⟨boot, hinv⟩
    · exact hbefore.safe
    · exact hinv.safe

end System

/-! ### Runs that can be evaluated -/

/-- The image loaded at `L` with its initial values, over the memory `m`. -/
def Image.load (img : Image b) (L N F : BitVec (8 * b)) (m : Memory (8 * b)) : Memory (8 * b) :=
  let word (m : Memory (8 * b)) (s : Symbol) (v : BitVec (8 * b)) := storeWord m (img.addr L s) v
  let m := word m .headerImageRunAddr img.runAddr
  let m := word m .headerImageSize (BitVec.ofNat (8 * b) img.size)
  let m := word m .headerNextRunAddr N
  let m := word m .headerNextFdtAddr F
  let m := word m .spinAddr 0
  let m := word m .relocateLottery 0
  let m := word m .loadStart 0
  word m .bootStatus 0

/-- Two harts in front of `_start`. -/
def bootSample (L : BitVec (8 * b)) (m : Memory (8 * b)) : System b (Fin 2) where
  mem := m
  harts := fun _ => ⟨L, .start, 0, 0, 0, 0, 0, 0, 0, 0, 0, 0, 0⟩

/-- The harts of a schedule step one after the other, as long as the memory that
each of them finds meets `p`. -/
def System.runWhile {ι : Type} [DecidableEq ι] (img : Image b) (p : Memory (8 * b) → Bool) :
    List ι → System b ι → Option (System b ι)
  | [], s => some s
  | i :: is, s =>
    if p s.mem then
      (Hart.step img (s.harts i, s.mem)).bind fun u => System.runWhile img p is (s.set i u.1 u.2)
    else none

theorem System.runWhile_reach {ι : Type} [DecidableEq ι] {img : Image b}
    {p : Memory (8 * b) → Bool} (L : BitVec (8 * b)) (is : List ι) (s t : System b ι)
    (hrun : System.runWhile img p is s = some t) :
    ReflTransGen (fun u v => BootStep img L u v ∧ p u.mem = true) s t := by
  induction is generalizing s with
  | nil =>
      cases hrun
      exact .refl
  | cons i is ih =>
      unfold System.runWhile at hrun
      split at hrun
      · rename_i hp
        obtain ⟨⟨h, m⟩, hstep, hrest⟩ := Option.bind_eq_some_iff.mp hrun
        exact .head ⟨.hart hstep, hp⟩ (ih _ hrest)
      · cases hrun

/-- Two harts on a 32-bit build, loaded at `0x20000000` and linked so that the run copy
ends at `0x80000000`. -/
theorem boot_protocol_safe_sample :
    let img := Image.sample 4 (Or.inl rfl) 0x7fffa000
    let L : BitVec (8 * 4) := 0x20000000
    let s0 := bootSample L (img.load L 0x80400000 0x82000000 (fun _ => 0x13))
    (∀ s, ReflTransGen (BootStep img L) s0 s →
      EnteredCopied img L s ∧ BootSafe 0x80400000 0x82000000 s) ∧
      ∀ s, NotWholeRun img L s0 s →
        ∀ i, (s.harts i).pc.bootPath = false → (s.harts i).base ≠ img.runAddr := by
  intro img L s0
  have hapart : img.Apart L := Or.inr (disjoint_of_dist _ _ _ _ (by decide) (by decide))
  have h0 : PowerOn img L 0x80400000 0x82000000 s0 :=
    ⟨by decide +kernel, by decide +kernel, by decide +kernel, by decide +kernel, by decide +kernel,
      by decide +kernel, by decide +kernel, fun _ => rfl, fun _ => rfl⟩
  obtain ⟨_, hentry, hcopied, hsafe⟩ := boot_protocol_safe img L _ _ s0 rfl (by decide) hapart
    (Or.inr (by decide)) h0
  exact ⟨fun s hs => ⟨hcopied (by decide) s hs, hsafe s hs⟩, hentry (by decide)⟩

/-- On a 32-bit build, a run copy across `0x80000000`, where an earlier image still
stands: the descending copy ends after one word, and the losing hart is sent into
the old image. -/
theorem old_run_copy_entered :
    let img := Image.sample 4 (Or.inl rfl) 0x7fffc000
    let L : BitVec (8 * 4) := 0x20000000
    img.Apart L ∧ ∃ s0 s : System 4 (Fin 2), PowerOn img L 0x80400000 0x82000000 s0 ∧
      NotWholeRun img L s0 s ∧ (s.harts 1).pc.bootPath = false ∧
      (s.harts 1).base = img.runAddr := by
  intro img L
  let old : Memory (8 * 4) := fun x => if x.toNat < 0x40000000 then 0x13 else 0
  let m := storeWord (storeWord (img.load L 0x80400000 0x82000000 old)
    (img.addr img.runAddr .headerImageRunAddr) img.runAddr) (img.addr img.runAddr .loadStart) L
  let differs : Memory (8 * 4) → Bool := fun m => m img.runAddr != m L
  let schedule : List (Fin 2) := List.replicate 11 0 ++ List.replicate 4 1
  have hrun : ((System.runWhile img differs schedule (bootSample L m)).any fun s =>
      !(s.harts 1).pc.bootPath && (s.harts 1).base == img.runAddr) = true := by
    decide +kernel
  have h0 : PowerOn img L 0x80400000 0x82000000 (bootSample L m) :=
    ⟨by decide +kernel, by decide +kernel, by decide +kernel, by decide +kernel, by decide +kernel,
      by decide +kernel, by decide +kernel, fun _ => rfl, fun _ => rfl⟩
  refine ⟨Or.inr (disjoint_of_dist _ _ _ _ (by decide) (by decide)), bootSample L m, ?_⟩
  cases hs : System.runWhile img differs schedule (bootSample L m) with
  | none =>
      rw [hs] at hrun
      cases hrun
  | some s =>
      simp only [hs, Option.any_some, Bool.and_eq_true, Bool.not_eq_true', beq_iff_eq] at hrun
      refine ⟨s, h0, ?_, hrun.1, hrun.2⟩
      refine ReflTransGen.mono ?_ _ _ (System.runWhile_reach L schedule _ s hs)
      rintro u v ⟨hstep, hdiffers⟩
      refine ⟨hstep, fun hwhole => ?_⟩
      have hfirst := hwhole 0 (by decide) (by decide)
      simp only [differs, bne_iff_ne] at hdiffers
      exact hdiffers (by simpa using hfirst)

end ZStage.Head
