import ZStage.Head.Relocation
import ZStage.Head.System

/-!
The harts that lost the lottery and wait at the load address while the boot hart
relocates the image. They read the header of the load copy, which the overlap
guards do not look at. The results say for which placements every waiting hart
computes its jump from the true run address, and that it leaves the wait loop
only when the image stands at the run address.

The system runs up to the fence after the boot-status store; a hart that has
left the wait loop stands still at its jump.
-/

namespace ZStage.Head

open ZStage.Lib.ByteMemory Relation

variable {b : Nat} {ι : Type} [DecidableEq ι]

/-- The points of the boot hart from `_relocate` up to the boot-status store,
and the points of the wait loop. -/
def Pc.beforeStatus : Pc b → Bool
  | .relocateJump _ | .relocateDone | .doneLoadStart | .doneStatus
  | .waitRunAddr | .waitStatus => true
  | pc => pc.relocating

def CopyPhaseStep (img : Image b) (s t : System b ι) : Prop :=
  ∃ i h m, (s.harts i).pc.beforeStatus = true ∧
    Hart.step img (s.harts i, s.mem) = some (h, m) ∧ t = s.set i h m

/-- The boot hart is at `_relocate` and all the others wait at the load copy. -/
structure CopyPhaseStart (img : Image b) (L : BitVec (8 * b)) (boot : ι) (s : System b ι) :
    Prop where
  loaded : img.LoadedAt L s.mem
  status : loadWord s.mem (img.addr L .bootStatus) = (0 : BitVec (8 * b))
  base : ∀ i, (s.harts i).base = L
  boot_pc : (s.harts boot).pc = .relocate
  wait_pc : ∀ i, i ≠ boot → (s.harts i).pc = .waitRunAddr

/-- What the wait loop owes to a losing hart `h` in a memory `m`, `m0` being the
memory at the start of the copy: the run address it has read is the true one, it
leaves the loop for `_secondary_spin_loop` of the run copy, and by then the
image stands there. A hart that finds itself in the run copy goes on to the same
address without a wait. -/
structure WaiterDirected (img : Image b) (L : BitVec (8 * b)) (m0 m : Memory (8 * b))
    (h : Hart b) : Prop where
  reads_run_addr : h.pc ≠ .waitRunAddr → h.t1 = img.runAddr
  target : ∀ a, h.pc = .waitJump a → a = img.addr img.runAddr .secondarySpinLoop
  complete : ∀ a, h.pc = .waitJump a → ∀ i, i < img.size →
    m (img.runAddr + BitVec.ofNat (8 * b) i) = m0 (L + BitVec.ofNat (8 * b) i)
  spin : h.pc = .secondarySpinLoop → h.base = img.runAddr
  pc : h.pc = .waitRunAddr ∨ h.pc = .waitStatus ∨ (∃ a, h.pc = .waitJump a) ∨
    h.pc = .secondarySpinLoop

/-- The run address in the header of the load copy survives the copy: no copy is
made, or the run copy does not reach the word, or the image holds the run
address also at the place that is copied over the word. -/
def Image.HeaderKept (img : Image b) (L : BitVec (8 * b)) (m0 : Memory (8 * b)) : Prop :=
  L = img.runAddr ∨ ¬ InRange img.runAddr img.size (img.addr L .headerImageRunAddr) ∨
    loadWord m0 (img.addr L .headerImageRunAddr + (L - img.runAddr)) = img.runAddr

def Image.GuardsPass (img : Image b) (L : BitVec (8 * b)) : Prop :=
  ∀ h : Hart b, h.base = L → h.t0 = img.runAddr → h.t1 = BitVec.ofNat (8 * b) img.size →
    h.t2 = L → (Hart.relocateBranch img h).pc ≠ .startHang

section Header

variable {img : Image b} {L : BitVec (8 * b)} {m0 m : Memory (8 * b)}

theorem Image.Aligned.header_offset (hal : img.Aligned L) {i : Nat} (hi : i % b = 0)
    (hle : i ≤ img.size) :
    (img.addr L .headerImageRunAddr - (img.runAddr + BitVec.ofNat (8 * b) i)).toNat % b = 0 := by
  have hpow : 2 ^ (8 * b) % b = 0 := by
    rcases img.xlen with hb | hb <;> subst hb <;> decide
  have hfit := img.size_lt
  have hword := img.word_le_size .headerImageRunAddr rfl
  have hoff := img.word_aligned .headerImageRunAddr rfl
  have hconst (j : Nat) (hj : j % b = 0) (hlt : j ≤ img.size) :
      (BitVec.ofNat (8 * b) j).toNat % b = 0 := by
    have hmod : j % 2 ^ (8 * b) = j := Nat.mod_eq_of_lt (by omega)
    rw [BitVec.toNat_ofNat, hmod]
    exact hj
  exact toNat_sub_mod (toNat_add_mod hal.load_aligned (hconst _ hoff (by omega)) hpow)
    (toNat_add_mod hal.run_aligned (hconst _ hi hle) hpow) hpow

/-- The word of the load copy's header that a partial copy leaves: the one that
was there, or the one that the whole copy puts there. -/
theorem header_moved_part (m0 : Memory (8 * b)) (hal : img.Aligned L) {i k : Nat}
    (hi : i % b = 0) (hk : k % b = 0)
    (hfit : i + k ≤ img.size) :
    (loadWord (move (img.runAddr + BitVec.ofNat (8 * b) i) (L + BitVec.ofNat (8 * b) i) k m0)
        (img.addr L .headerImageRunAddr) : BitVec (8 * b)) =
      if InRange (img.runAddr + BitVec.ofNat (8 * b) i) k (img.addr L .headerImageRunAddr) then
        loadWord m0 (img.addr L .headerImageRunAddr + (L - img.runAddr))
      else loadWord m0 (img.addr L .headerImageRunAddr) := by
  have hpow : 2 ^ (8 * b) % b = 0 := by
    rcases img.xlen with hb | hb <;> subst hb <;> decide
  have hsrc : L + BitVec.ofNat (8 * b) i +
      (img.addr L .headerImageRunAddr - (img.runAddr + BitVec.ofNat (8 * b) i)) =
      img.addr L .headerImageRunAddr + (L - img.runAddr) := by
    ring
  rw [loadWord_move_words _ _ _ _ _ hk (hal.header_offset hi (by omega)) hpow, hsrc]

theorem RelocState.header_kept {n : Nat} {h : Hart b} (hs : RelocState img L m0 n h m)
    (hord : img.Ordered L) (hal : img.Aligned L) (hkept : img.HeaderKept L m0)
    (hload : img.LoadedAt L m0) :
    loadWord m (img.addr L .headerImageRunAddr) = img.runAddr := by
  obtain ⟨i, k, hi, hk, hfit, rfl⟩ := hs.moved_part (fun _ => hord.copyOrdered)
  rw [header_moved_part m0 hal hi hk hfit]
  split
  · rename_i hin
    have hin := inRange_mono hfit (Nat.le_of_lt img.size_lt) hin
    rcases hkept with heq | hout | hword
    · rw [heq, sub_self, add_zero, ← heq]
      exact hload.run_addr.trans heq.symm
    · exact absurd hin hout
    · exact hword
  · exact hload.run_addr

end Header

/-! ### The boot hart

The boot hart alone writes memory in this phase. `BootState img L m0 h m` lists
what it and memory can be up to the fence after the boot-status store. -/

inductive BootState (img : Image b) (L : BitVec (8 * b)) (m0 : Memory (8 * b)) :
    Hart b → Memory (8 * b) → Prop
  | reloc {n : Nat} {h : Hart b} {m : Memory (8 * b)} (hs : RelocState img L m0 n h m) :
      BootState img L m0 h m
  | done {h : Hart b} (hpc : h.pc = .relocateDone) (hbase : h.base = img.runAddr)
      (hspares : L = img.runAddr ∨ img.Spares L) :
      BootState img L m0 h (move img.runAddr L img.size m0)
  | loadStart {h : Hart b} (hpc : h.pc = .doneLoadStart) (hbase : h.base = img.runAddr)
      (ht0 : h.t0 = img.addr img.runAddr .bootStatus) (ht1 : h.t1 = img.runAddr)
      (hspares : L = img.runAddr ∨ img.Spares L) :
      BootState img L m0 h (move img.runAddr L img.size m0)
  | status {h : Hart b} (hpc : h.pc = .doneStatus) (ht0 : h.t0 = img.addr L .bootStatus)
      (ht1 : h.t1 = 1) (hspares : L = img.runAddr ∨ img.Spares L) :
      BootState img L m0 h (move img.runAddr L img.size m0)
  | fence {h : Hart b} (hpc : h.pc = .doneFence) (hspares : L = img.runAddr ∨ img.Spares L) :
      BootState img L m0 h
        (storeWord (move img.runAddr L img.size m0) (img.addr L .bootStatus) (1 : BitVec (8 * b)))

section Boot

variable {img : Image b} {L : BitVec (8 * b)} {m0 m m' : Memory (8 * b)} {h h' : Hart b}

/-- With the image loaded where it runs, `_relocate` goes to `_relocate_done`
without a copy. -/
theorem RelocState.step_in_place {n : Nat} (hs : RelocState img L m0 n h m)
    (hin : L = img.runAddr) (hpc : h.pc = .relocateLoadStart) (hload : img.LoadedAt L m0)
    (hstep : Hart.step img (h, m) = some (h', m')) : BootState img L m0 h' m' := by
  cases hs with
  | placed _ hbase ht0 ht1 =>
      have hmove : move img.runAddr L img.size m0 = m0 := by
        rw [hin]
        exact move_self _ _ _
      have heq : h'.pc = .relocateDone ∧ h'.base = img.runAddr ∧ m' = m0 := by
        simp only [Hart.step, Hart.action, hpc, Action.exec, Hart.la, hbase, hload.load_start,
          Option.some.injEq, Prod.mk.injEq] at hstep
        obtain ⟨rfl, rfl⟩ := hstep
        simp [Hart.relocateBranch, ht0, hin]
      obtain ⟨hpc', hbase', rfl⟩ := heq
      have hdone : BootState img L m' h' (move img.runAddr L img.size m') :=
        .done hpc' hbase' (Or.inl hin)
      rwa [hmove] at hdone
  | entry hpc' | sized hpc' | hang hpc' | lowerLoad hpc' | lowerStore hpc' | upperLoad hpc'
  | upperStore hpc' | jump hpc' => rw [hpc] at hpc'; cases hpc'

theorem BootState.step (hs : BootState img L m0 h m) (hord : L ≠ img.runAddr → img.CopyOrdered L)
    (hal : L ≠ img.runAddr → img.WordsBelow L) (hload : img.LoadedAt L m0)
    (hpc : h.pc.beforeStatus = true)
    (hstep : Hart.step img (h, m) = some (h', m')) : BootState img L m0 h' m' := by
  have hmoved := img.relocated_move L m0
  cases hs with
  | reloc hs =>
      by_cases hrel : h.pc.relocating = true
      · by_cases hplace : h.pc = .relocateLoadStart ∧ L = img.runAddr
        · exact hs.step_in_place hplace.2 hplace.1 hload hstep
        · obtain ⟨_, _, _, hrun, hnext, _⟩ := hs.step hord hal
            (fun hpc heq => hplace ⟨hpc, heq⟩) hload hrel
          cases hrun.symm.trans hstep
          exact .reloc hnext
      · rcases hs.stopped (by simpa using hrel) with hhang | ⟨hjump, rfl, hspares⟩
        · simp [hhang, Pc.beforeStatus, Pc.relocating] at hpc
        · simp only [Hart.step, Hart.action, hjump, Action.exec, Hart.land, if_true,
            Option.some.injEq, Prod.mk.injEq] at hstep
          obtain ⟨rfl, rfl⟩ := hstep
          exact .done rfl rfl (Or.inr hspares)
  | done hpc hbase hspares =>
      simp only [Hart.step, Hart.action, hpc, Action.exec, Hart.la, hbase, Option.some.injEq,
        Prod.mk.injEq] at hstep
      obtain ⟨rfl, rfl⟩ := hstep
      exact .loadStart rfl rfl rfl
        ((hmoved.loadWord_run .headerImageRunAddr rfl).trans hload.run_addr) hspares
  | loadStart hpc hbase ht0 ht1 hspares =>
      have hstart : loadWord (move img.runAddr L img.size m0) (img.addr img.runAddr .loadStart) =
          L := (hmoved.loadWord_run .loadStart rfl).trans hload.load_start
      simp only [Hart.step, Hart.action, hpc, Action.exec, Hart.la, hbase, hstart, ht0, ht1,
        Option.some.injEq, Prod.mk.injEq] at hstep
      obtain ⟨rfl, rfl⟩ := hstep
      refine .status rfl ?_ rfl hspares
      simp only [Image.addr]
      ring
  | status hpc ht0 ht1 hspares =>
      simp only [Hart.step, Hart.action, hpc, Action.exec, ht0, ht1, Option.some.injEq,
        Prod.mk.injEq] at hstep
      obtain ⟨rfl, rfl⟩ := hstep
      exact .fence rfl hspares
  | fence hpc' => simp [hpc', Pc.beforeStatus, Pc.relocating] at hpc

/-- Until the boot hart stores the boot status, the load copy's is what it was. -/
theorem BootState.status_kept (hs : BootState img L m0 h m)
    (hord : L ≠ img.runAddr → img.CopyOrdered L) (hpc : h.pc ≠ .doneFence) :
    (loadWord m (img.addr L .bootStatus) : BitVec (8 * b)) =
      loadWord m0 (img.addr L .bootStatus) := by
  have hmove (hspares : L = img.runAddr ∨ img.Spares L) :
      (loadWord (move img.runAddr L img.size m0) (img.addr L .bootStatus) : BitVec (8 * b)) =
        loadWord m0 (img.addr L .bootStatus) := by
    rcases hspares with heq | hspares
    · rw [heq, move_self]
    · apply loadWord_of_unchanged img.b_le
      intro x hx
      exact move_of_not_inRange _ _ _ _ _ (hspares.boot_status.symm x hx)
  cases hs with
  | reloc hs => exact loadWord_of_unchanged img.b_le (hs.protected hord).boot_status
  | done _ _ hspares | loadStart _ _ _ _ hspares | status _ _ _ hspares => exact hmove hspares
  | fence hpc' => exact absurd hpc' hpc

theorem BootState.header_kept (hs : BootState img L m0 h m) (hord : img.Ordered L)
    (hal : img.Aligned L) (hkept : img.HeaderKept L m0) (hload : img.LoadedAt L m0) :
    loadWord m (img.addr L .headerImageRunAddr) = img.runAddr := by
  have hmove (hspares : L = img.runAddr ∨ img.Spares L) :
      loadWord (move img.runAddr L img.size m0) (img.addr L .headerImageRunAddr) =
        img.runAddr := by
    rcases hspares with heq | hspares
    · rw [heq, move_self, ← heq]
      exact hload.run_addr.trans heq.symm
    · have hjump : RelocState img L m0 0
          { h with pc := .relocateJump (img.addr img.runAddr .relocateDone) } _ :=
        .jump rfl hspares
      exact hjump.header_kept hord hal hkept hload
  cases hs with
  | reloc hs => exact hs.header_kept hord hal hkept hload
  | done _ _ hspares | loadStart _ _ _ _ hspares | status _ _ _ hspares => exact hmove hspares
  | fence _ hspares =>
      rw [loadWord_storeWord_of_disjoint _ _ _ _ img.b_le
        (img.words_disjoint L _ _ rfl rfl (by decide))]
      exact hmove hspares

/-- Once the boot status is stored, the run copy holds the image. -/
theorem BootState.complete (hs : BootState img L m0 h m) (hpc : h.pc = .doneFence)
    (hne : L ≠ img.runAddr) (i : Nat) (hi : i < img.size) :
    m (img.runAddr + BitVec.ofNat (8 * b) i) = m0 (L + BitVec.ofNat (8 * b) i) := by
  cases hs with
  | fence _ hspares =>
      have hspares := hspares.resolve_left hne
      exact (img.relocated_move L m0).storeWord_spared _ _ hspares.boot_status i hi
  | done hpc' | loadStart hpc' | status hpc' => rw [hpc] at hpc'; cases hpc'
  | reloc hs =>
      cases hs with
      | entry hpc' | sized hpc' | placed hpc' | hang hpc' | lowerLoad hpc' | lowerStore hpc'
      | upperLoad hpc' | upperStore hpc' | jump hpc' => rw [hpc] at hpc'; cases hpc'

end Boot

/-! ### The losing harts -/

/-- What a losing hart can be, `done` saying that the boot status is stored. -/
inductive LoserState (img : Image b) (L : BitVec (8 * b)) (done : Prop) : Hart b → Prop
  | reads {h : Hart b} (hpc : h.pc = .waitRunAddr) (hbase : h.base = L) :
      LoserState img L done h
  | waits {h : Hart b} (hpc : h.pc = .waitStatus) (hbase : h.base = L)
      (ht1 : h.t1 = img.runAddr) (ht2 : h.t2 = img.addr L .bootStatus)
      (ht3 : h.t3 = img.addr img.runAddr .secondarySpinLoop) (hne : L ≠ img.runAddr) :
      LoserState img L done h
  | leaves {h : Hart b} (hpc : h.pc = .waitJump (img.addr img.runAddr .secondarySpinLoop))
      (ht1 : h.t1 = img.runAddr) (hdone : done) (hne : L ≠ img.runAddr) :
      LoserState img L done h
  | inPlace {h : Hart b} (hpc : h.pc = .secondarySpinLoop) (hbase : h.base = img.runAddr)
      (ht1 : h.t1 = img.runAddr) :
      LoserState img L done h

section Losers

variable {img : Image b} {L : BitVec (8 * b)} {m0 m m' : Memory (8 * b)} {h h' : Hart b}

/-- A losing hart only reads memory. As long as it reads the true run address,
and no boot status before it is stored, it stays in the listed states. -/
theorem LoserState.step {done : Prop} (hs : LoserState img L done h)
    (hheader : loadWord m (img.addr L .headerImageRunAddr) = img.runAddr)
    (hstatus : ¬ done → loadWord m (img.addr L .bootStatus) = (0 : BitVec (8 * b)))
    (hpc : h.pc.beforeStatus = true) (hstep : Hart.step img (h, m) = some (h', m')) :
    m' = m ∧ LoserState img L done h' := by
  cases hs with
  | reads hpc hbase =>
      simp only [Hart.step, Hart.action, hpc, Action.exec, Hart.la, hbase, hheader,
        Option.some.injEq, Prod.mk.injEq] at hstep
      obtain ⟨hnext, rfl⟩ := hstep
      refine ⟨rfl, ?_⟩
      have hstart : img.addr L .start = L := by simp [Image.addr, Image.offset]
      rw [hstart] at hnext
      split at hnext
      · rename_i heq
        subst hnext
        exact .inPlace rfl heq rfl
      · rename_i hne
        subst hnext
        refine .waits rfl rfl rfl rfl ?_ hne
        simp only [Image.addr]
        ring
  | waits hpc hbase ht1 ht2 ht3 hne =>
      simp only [Hart.step, Hart.action, hpc, Action.exec, ht2, Option.some.injEq,
        Prod.mk.injEq] at hstep
      obtain ⟨hnext, rfl⟩ := hstep
      refine ⟨rfl, ?_⟩
      split at hnext
      · subst hnext
        exact .waits rfl hbase ht1 rfl ht3 hne
      · rename_i hleave
        subst hnext
        refine .leaves (by rw [ht3]) ht1 ?_ hne
        by_contra hnot
        rw [hstatus hnot] at hleave
        apply hleave
        rcases img.xlen with hb | hb <;> subst hb <;> decide
  | leaves hpc' | inPlace hpc' => simp [hpc', Pc.beforeStatus, Pc.relocating] at hpc

theorem LoserState.mono {done done' : Prop} (hs : LoserState img L done h)
    (hmono : done → done') : LoserState img L done' h := by
  cases hs with
  | reads hpc hbase => exact .reads hpc hbase
  | waits hpc hbase ht1 ht2 ht3 hne => exact .waits hpc hbase ht1 ht2 ht3 hne
  | leaves hpc ht1 hdone hne => exact .leaves hpc ht1 (hmono hdone) hne
  | inPlace hpc hbase ht1 => exact .inPlace hpc hbase ht1

theorem LoserState.directed {done : Prop} (hs : LoserState img L done h)
    (hcomplete : done → L ≠ img.runAddr → ∀ i, i < img.size →
      m (img.runAddr + BitVec.ofNat (8 * b) i) = m0 (L + BitVec.ofNat (8 * b) i)) :
    WaiterDirected img L m0 m h := by
  cases hs with
  | reads hpc hbase =>
      constructor
      · exact fun hne => absurd hpc hne
      · intro a ha; rw [hpc] at ha; cases ha
      · intro a ha; rw [hpc] at ha; cases ha
      · intro ha; rw [hpc] at ha; cases ha
      · exact Or.inl hpc
  | waits hpc hbase ht1 =>
      constructor
      · exact fun _ => ht1
      · intro a ha; rw [hpc] at ha; cases ha
      · intro a ha; rw [hpc] at ha; cases ha
      · intro ha; rw [hpc] at ha; cases ha
      · exact Or.inr (Or.inl hpc)
  | leaves hpc ht1 hdone hne =>
      constructor
      · exact fun _ => ht1
      · intro a ha; rw [hpc] at ha; cases ha; rfl
      · exact fun _ _ => hcomplete hdone hne
      · intro ha; rw [hpc] at ha; cases ha
      · exact Or.inr (Or.inr (Or.inl ⟨_, hpc⟩))
  | inPlace hpc hbase ht1 =>
      constructor
      · exact fun _ => ht1
      · intro a ha; rw [hpc] at ha; cases ha
      · intro a ha; rw [hpc] at ha; cases ha
      · exact fun _ => hbase
      · exact Or.inr (Or.inr (Or.inr hpc))

end Losers

/-! ### The whole phase -/

structure CopyPhaseInv (img : Image b) (L : BitVec (8 * b)) (m0 : Memory (8 * b)) (boot : ι)
    (s : System b ι) : Prop where
  boot_state : BootState img L m0 (s.harts boot) s.mem
  losers : ∀ i, i ≠ boot → LoserState img L ((s.harts boot).pc = .doneFence) (s.harts i)

section Phase

variable {img : Image b} {L : BitVec (8 * b)} {boot : ι} {s0 s t : System b ι}

omit [DecidableEq ι] in
theorem CopyPhaseStart.inv (hs : CopyPhaseStart img L boot s0) :
    CopyPhaseInv img L s0.mem boot s0 where
  boot_state := .reloc (.entry hs.boot_pc (hs.base boot))
  losers := fun i hi => .reads (hs.wait_pc i hi) (hs.base i)

theorem CopyPhaseInv.step (hs : CopyPhaseInv img L s0.mem boot s) (hord : img.Ordered L)
    (hal : img.Aligned L) (hstart : CopyPhaseStart img L boot s0)
    (hkept : img.HeaderKept L s0.mem) (hstep : CopyPhaseStep img s t) :
    CopyPhaseInv img L s0.mem boot t := by
  obtain ⟨i, h, m, hpc, hstep, rfl⟩ := hstep
  rcases eq_or_ne i boot with rfl | hi
  · have hnext := hs.boot_state.step (fun _ => hord.copyOrdered) (fun _ => hal.wordsBelow)
      hstart.loaded
      hpc hstep
    have hnot : (s.harts i).pc ≠ .doneFence := by
      intro hdone
      rw [hdone] at hpc
      cases hpc
    refine ⟨by simpa using hnext, ?_⟩
    intro j hj
    rw [System.set_harts_ne _ _ _ _ _ hj]
    exact (hs.losers j hj).mono (fun hdone => absurd hdone hnot)
  · have hheader := hs.boot_state.header_kept hord hal hkept hstart.loaded
    have hstatus (hnot : (s.harts boot).pc ≠ .doneFence) :=
      (hs.boot_state.status_kept (fun _ => hord.copyOrdered) hnot).trans hstart.status
    obtain ⟨rfl, hnext⟩ := (hs.losers i hi).step hheader hstatus hpc hstep
    have hboot : (s.set i h s.mem).harts boot = s.harts boot :=
      System.set_harts_ne _ _ _ _ _ hi.symm
    refine ⟨by rw [hboot]; exact hs.boot_state, ?_⟩
    intro j hj
    rw [hboot]
    rcases eq_or_ne j i with rfl | hji
    · simpa using hnext
    · rw [System.set_harts_ne _ _ _ _ _ hji]
      exact hs.losers j hj

omit [DecidableEq ι] in
theorem CopyPhaseInv.directed (hs : CopyPhaseInv img L s0.mem boot s) (i : ι) (hi : i ≠ boot) :
    WaiterDirected img L s0.mem s.mem (s.harts i) :=
  (hs.losers i hi).directed hs.boot_state.complete

theorem CopyPhaseStart.reach_inv (hstart : CopyPhaseStart img L boot s0) (hord : img.Ordered L)
    (hal : img.Aligned L) (hkept : img.HeaderKept L s0.mem)
    (hreach : ReflTransGen (CopyPhaseStep img) s0 s) : CopyPhaseInv img L s0.mem boot s := by
  induction hreach with
  | refl => exact hstart.inv
  | tail _ hstep ih => exact ih.step hord hal hstart hkept hstep

theorem copyPhase_of_reloc (s : System b ι) (boot : ι) {u v : Hart b × Memory (8 * b)}
    (hreach : RelocReach img u v) :
    ReflTransGen (CopyPhaseStep img) (s.set boot u.1 u.2) (s.set boot v.1 v.2) := by
  induction hreach with
  | refl => exact .refl
  | @tail v w _ hstep ih =>
      refine ih.tail ⟨boot, w.1, w.2, ?_, ?_, by simp⟩
      · obtain ⟨hrel, _⟩ := hstep
        simp only [System.set_harts_same]
        cases hpc : v.1.pc <;> simp [hpc, Pc.relocating] at hrel <;> rfl
      · simpa using hstep.2

theorem relocation_reaches_jump {m0 : Memory (8 * b)} {h0 : Hart b} (hord : img.CopyOrdered L)
    (hal : img.Aligned L) (hne : L ≠ img.runAddr) (hload : img.LoadedAt L m0)
    (hpass : img.GuardsPass L) (hbase : h0.base = L) (hpc : h0.pc = .relocate) :
    ∃ h, h.pc = .relocateJump (img.addr img.runAddr .relocateDone) ∧
      RelocReach img (h0, m0) (h, move img.runAddr L img.size m0) := by
  obtain ⟨h, hbase', ht0, ht1, ht2, hreach, _⟩ := relocation_enters hload hbase hpc
  have hcopy : (Hart.relocateBranch img h).pc.copying = true := by
    rcases relocateBranch_cases img L h hord hal.wordsBelow hne hbase' ht0 ht1 ht2 with
      ⟨hhang, _⟩ | ⟨hpc', _⟩ | ⟨hpc', _⟩
    · exact absurd hhang (hpass h hbase' ht0 ht1 ht2)
    · rw [hpc']; rfl
    · rw [hpc']; rfl
  have hentry : RelocState img L m0 _ (h0, m0).1 (h0, m0).2 := .entry hpc hbase
  obtain ⟨n, hstate⟩ := hentry.reach hord hal.wordsBelow hne hload hreach
  obtain ⟨v, hrun, hdone, _, hfinal⟩ := hstate.finishes hord hal.wordsBelow hne hload
  rcases hfinal.stopped hdone with hhang | ⟨hjump, hmem, _⟩
  · have hcopying := copying_reach hrun hcopy
    rw [hhang] at hcopying
    cases hcopying
  · refine ⟨v.1, hjump, hreach.trans ?_⟩
    rw [← hmem]
    exact hrun

/-- A placement that does not keep the header sends a losing hart astray: delayed
until the copy is over, it takes another word for the run address. -/
theorem header_lost (hstart : CopyPhaseStart img L boot s0) (hord : img.Ordered L)
    (hal : img.Aligned L) (hpass : img.GuardsPass L) (hlost : ¬ img.HeaderKept L s0.mem)
    {i : ι} (hi : i ≠ boot) :
    ∃ s, ReflTransGen (CopyPhaseStep img) s0 s ∧ (s.harts i).pc ≠ .waitRunAddr ∧
      (s.harts i).t1 ≠ img.runAddr := by
  simp only [Image.HeaderKept, not_or, not_not] at hlost
  obtain ⟨hne, hin, hword⟩ := hlost
  obtain ⟨h, _, hreach⟩ := relocation_reaches_jump hord.copyOrdered hal hne hstart.loaded hpass
    (hstart.base boot) hstart.boot_pc
  have hrun := copyPhase_of_reloc s0 boot hreach
  rw [System.set_self] at hrun
  have hread : (loadWord (move img.runAddr L img.size s0.mem) (img.addr L .headerImageRunAddr) :
      BitVec (8 * b)) ≠ img.runAddr := by
    have hsize : img.size % b = 0 := by
      rw [← img.mul_words]
      exact Nat.mul_mod_right b _
    have hmoved := header_moved_part s0.mem hal (Nat.zero_mod b) hsize
      (Nat.le_of_eq (Nat.zero_add img.size))
    have hzero : BitVec.ofNat (8 * b) 0 = 0 := rfl
    rw [hzero, add_zero, add_zero, if_pos hin] at hmoved
    rw [hmoved]
    exact hword
  have hloser : (s0.set boot h (move img.runAddr L img.size s0.mem)).harts i = s0.harts i :=
    System.set_harts_ne _ _ _ _ _ hi
  have hpc := hstart.wait_pc i hi
  have hbase := hstart.base i
  obtain ⟨h', hstep, hpc', ht1⟩ : ∃ h', Hart.step img (s0.harts i,
      move img.runAddr L img.size s0.mem) = some (h', move img.runAddr L img.size s0.mem) ∧
      h'.pc ≠ .waitRunAddr ∧ h'.t1 =
        loadWord (move img.runAddr L img.size s0.mem) (img.addr L .headerImageRunAddr) := by
    refine ⟨_, by simp [Hart.step, Hart.action, hpc, Action.exec]; rfl, ?_, ?_⟩
    · split <;> simp
    · split <;> simp [Hart.la, hbase]
  refine ⟨_, hrun.tail ⟨i, h', _, ?_, by rw [hloser]; exact hstep, rfl⟩, ?_, ?_⟩
  · rw [hloser, hpc]
    rfl
  · simpa using hpc'
  · simp only [System.set_harts_same, ht1]
    exact hread

end Phase

/-- The losing harts, for every placement that the signed branches order, every
number of harts and every interleaving with the boot hart. Each of them is
directed by the true run address whenever the copy keeps the header word they
read; and when the guards let the boot hart through, in no other case. -/
theorem losers_directed_iff_headerKept (img : Image b) (L : BitVec (8 * b)) (boot : ι)
    (s0 : System b ι) (hord : img.Ordered L) (hal : img.Aligned L)
    (hstart : CopyPhaseStart img L boot s0) :
    (img.HeaderKept L s0.mem → ∀ s, ReflTransGen (CopyPhaseStep img) s0 s →
      ∀ i, i ≠ boot → WaiterDirected img L s0.mem s.mem (s.harts i)) ∧
    (img.GuardsPass L → (∃ i, i ≠ boot) →
      ((∀ s, ReflTransGen (CopyPhaseStep img) s0 s →
          ∀ i, i ≠ boot → WaiterDirected img L s0.mem s.mem (s.harts i)) ↔
        img.HeaderKept L s0.mem)) := by
  have hdirected (hkept : img.HeaderKept L s0.mem) (s : System b ι)
      (hreach : ReflTransGen (CopyPhaseStep img) s0 s) (i : ι) (hi : i ≠ boot) :
      WaiterDirected img L s0.mem s.mem (s.harts i) :=
    (hstart.reach_inv hord hal hkept hreach).directed i hi
  refine ⟨hdirected, ?_⟩
  rintro hpass ⟨i, hi⟩
  refine ⟨?_, hdirected⟩
  intro hall
  by_contra hlost
  obtain ⟨s, hreach, hpc, ht1⟩ := header_lost hstart hord hal hpass hlost hi
  exact ht1 ((hall s hreach i hi).reads_run_addr hpc)

/-- The guards let the boot hart through when the run copy lies below the load copy
and ends at or below its relocation code, however far it reaches into the pages
in front of that code. -/
theorem Image.guardsPass_of_below (img : Image b) (L : BitVec (8 * b))
    (htop : L.toInt + img.size < 2 ^ (8 * b - 1)) (hlt : img.runAddr.toInt < L.toInt)
    (hcode : img.runAddr.toInt + img.size ≤ L.toInt + img.relocate) : img.GuardsPass L := by
  intro h hbase ht0 ht1 ht2
  have h1 := img.relocate_lt
  have h2 := img.relocateDone_lt
  have h3 := img.text_lt_data
  have h4 := img.realStart_le
  have hstat := img.word_le_size .bootStatus rfl
  have hend : (img.runAddr + BitVec.ofNat (8 * b) img.size).toInt =
      img.runAddr.toInt + img.size := toInt_add_ofNat _ _ (by omega)
  -- every symbol that the guards look for lies behind the run copy
  have hbehind (s : Symbol) (hs : s ∈ Symbol.guarded) :
      img.runAddr.toInt + img.size ≤ (img.addr L s).toInt ∧ L.toInt < (img.addr L s).toInt := by
    have hoff : img.relocate ≤ img.offset s ∧ img.offset s ≤ img.offset .bootStatus := by
      simp only [Symbol.guarded, List.mem_cons, List.not_mem_nil, or_false] at hs
      rcases hs with rfl | rfl | rfl | rfl <;> simp only [Image.offset] <;> omega
    have haddr : (img.addr L s).toInt = L.toInt + img.offset s := toInt_add_ofNat _ _ (by omega)
    omega
  obtain ⟨h', hr, hbranch⟩ :=
    relocateBranch_split img L h (ne_of_toInt_lt hlt).symm hbase ht0 ht1 ht2
  rw [hbranch, if_neg (by omega)]
  rcases hr.lower_cases with ⟨_, ⟨s, hs, hbetween⟩ | hself, _⟩ | ⟨_, hpc, _⟩
  · have hout := (hbehind s hs).1
    rw [brange_iff, hend] at hbetween
    omega
  · have hout := (hbehind .relocate (by simp [Symbol.guarded])).2
    rw [brange_iff] at hself
    omega
  · rw [hpc]
    simp

/-- Two harts at the start of the copy phase. -/
def copyPhaseSample (L : BitVec (8 * b)) (m : Memory (8 * b)) : System b (Fin 2) where
  mem := m
  harts := fun i =>
    ⟨L, if i = 0 then .relocate else .waitRunAddr, 0, 0, 0, 0, 0, 0, 0, 0, 0, 0, 0⟩

theorem copyPhaseSample_start (img : Image b) (L : BitVec (8 * b)) (m : Memory (8 * b))
    (hload : img.LoadedAt L m)
    (hstatus : loadWord m (img.addr L .bootStatus) = (0 : BitVec (8 * b))) :
    CopyPhaseStart img L 0 (copyPhaseSample L m) where
  loaded := hload
  status := hstatus
  base := fun _ => rfl
  boot_pc := rfl
  wait_pc := fun _ hi => if_neg hi

/-- The run copy reaches into the load copy, over the header word, and the image holds the
run address also where that word is copied from. -/
theorem losers_directed_sample :
    let img := Image.sample 8 (Or.inr rfl) 0x84000000
    let L : BitVec (8 * 8) := 0x84003000
    let s0 := copyPhaseSample L (storeWord (img.place L (fun _ => 0))
      (img.addr L .headerImageRunAddr + (L - img.runAddr)) img.runAddr)
    img.GuardsPass L ∧ InRange img.runAddr img.size (img.addr L .headerImageRunAddr) ∧
      ∀ s, ReflTransGen (CopyPhaseStep img) s0 s → ∀ i, i ≠ 0 →
        WaiterDirected img L s0.mem s.mem (s.harts i) := by
  intro img L s0
  have hpass : img.GuardsPass L :=
    img.guardsPass_of_below L (by decide) (by decide) (by decide)
  have hload : img.LoadedAt L s0.mem :=
    ⟨by decide +kernel, by decide +kernel, by decide +kernel⟩
  have hstart : CopyPhaseStart img L 0 s0 :=
    copyPhaseSample_start img L _ hload (by decide +kernel)
  have hkept : img.HeaderKept L s0.mem := Or.inr (Or.inr (by decide +kernel))
  exact ⟨hpass, by decide, (losers_directed_iff_headerKept img L 0 s0 ⟨by decide, by decide⟩
    ⟨by decide, by decide⟩ hstart).1 hkept⟩

/-- The run copy reaches 12 KiB into the load copy, up to the relocation code: the
guards let the boot hart through, it copies another word over the run address in
the header, and the losing hart reads that word. -/
theorem loser_misdirected :
    let img := Image.sample 8 (Or.inr rfl) 0x84000000
    let L : BitVec (8 * 8) := 0x84003000
    let s0 := copyPhaseSample L (storeWord (img.place L (fun _ => 0x13))
      (img.addr L .bootStatus) (0 : BitVec (8 * 8)))
    img.GuardsPass L ∧ CopyPhaseStart img L 0 s0 ∧
      ∃ s, ReflTransGen (CopyPhaseStep img) s0 s ∧ (s.harts 1).pc ≠ .waitRunAddr ∧
        (s.harts 1).t1 ≠ img.runAddr := by
  intro img L s0
  have hpass : img.GuardsPass L :=
    img.guardsPass_of_below L (by decide) (by decide) (by decide)
  have hload : img.LoadedAt L s0.mem :=
    ⟨by decide +kernel, by decide +kernel, by decide +kernel⟩
  have hstart : CopyPhaseStart img L 0 s0 :=
    copyPhaseSample_start img L _ hload (by decide +kernel)
  refine ⟨hpass, hstart, ?_⟩
  apply header_lost hstart ⟨by decide, by decide⟩ ⟨by decide, by decide⟩ hpass ?_ (by decide)
  rintro (heq | hout | hword)
  · exact absurd heq (by decide)
  · exact hout (by decide)
  · exact absurd hword (by decide +kernel)

end ZStage.Head
