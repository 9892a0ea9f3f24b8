import ZStage.Head.CopyLoop
import ZStage.Head.BootSystem

/-!
The boot hart's part of the boot protocol. Its program point gives the stage that the
flags are in: the boot status of the load copy and the spin word of the run copy
(`MemAt`). `BootAt` lists what the registers of the boot hart can be; every step of
the boot hart keeps both (`BootAt.step`).
-/

namespace ZStage.Head

open ZStage.Lib.ByteMemory Relation

variable {b : Nat}

/-- The stages of the boot hart: 1 before `_relocate`, 2 up to the end of the
copy, 3 at the jump into the run copy, 4 up to the boot-status store, 5 up to the
return of `zstage_main`, 7 up to the store of the spin word, and 8 from there. -/
def Pc.stage : Pc b → Nat
  | .saveLoadStart => 1
  | .relocate | .relocateSize | .relocateLoadStart
  | .copyToLowerLoad | .copyToLowerStore | .copyToUpperLoad | .copyToUpperStore
  | .startHang => 2
  | .relocateJump _ => 3
  | .relocateDone | .doneLoadStart | .doneStatus => 4
  | .doneFence | .saveBootArg1 | .bssZero | .stackTop | .loadBootArg1 | .main => 5
  | .spinNextRun | .spinStore => 7
  | .spinFence | .jumpFdt | .jumpRun | .nextStage _ => 8
  | _ => 0

def Pc.bootPath (pc : Pc b) : Bool := pc.stage != 0 && pc != .startHang

/-- The boot status is stored, so the jump into the run copy is behind. -/
def Pc.statusStored (pc : Pc b) : Bool := 5 ≤ pc.stage

def Pc.mainReturned (pc : Pc b) : Bool := 7 ≤ pc.stage

/-- The words of the two copies at a stage of the boot hart. -/
structure MemAt (img : Image b) (L N F : BitVec (8 * b)) (stage : Nat) (m : Memory (8 * b)) :
    Prop where
  run_addr : loadWord m (img.addr L .headerImageRunAddr) = img.runAddr
  image_size : loadWord m (img.addr L .headerImageSize) = BitVec.ofNat (8 * b) img.size
  next_run : loadWord m (img.addr L .headerNextRunAddr) = N
  next_fdt : loadWord m (img.addr L .headerNextFdtAddr) = F
  status : stage ≤ 4 → loadWord m (img.addr L .bootStatus) = (0 : BitVec (8 * b))
  load_start : 2 ≤ stage → loadWord m (img.addr L .loadStart) = L
  load_spin : stage ≤ 2 → loadWord m (img.addr L .spinAddr) = (0 : BitVec (8 * b))
  run_copy : 3 ≤ stage → loadWord m (img.addr img.runAddr .headerImageRunAddr) = img.runAddr ∧
    loadWord m (img.addr img.runAddr .loadStart) = L ∧
    loadWord m (img.addr img.runAddr .headerNextRunAddr) = N ∧
    loadWord m (img.addr img.runAddr .headerNextFdtAddr) = F
  run_spin : 3 ≤ stage → stage < 8 →
    loadWord m (img.addr img.runAddr .spinAddr) = (0 : BitVec (8 * b))
  run_spun : 8 ≤ stage → loadWord m (img.addr img.runAddr .spinAddr) = N

section Stages

variable {img : Image b} {L N F : BitVec (8 * b)} {stage : Nat} {m m' : Memory (8 * b)}

theorem MemAt.of_kept (hm : MemAt img L N F stage m)
    (hload : ∀ s : Symbol, s.isWord = true → s ≠ .relocateLottery → s ≠ .bootArg1 →
      (loadWord m' (img.addr L s) : BitVec (8 * b)) = loadWord m (img.addr L s))
    (hrun : 3 ≤ stage → ∀ s : Symbol, s.isWord = true → s ≠ .relocateLottery → s ≠ .bootArg1 →
      (loadWord m' (img.addr img.runAddr s) : BitVec (8 * b)) =
        loadWord m (img.addr img.runAddr s)) :
    MemAt img L N F stage m' := by
  have hl (s : Symbol) (hs : s.isWord = true) (h1 : s ≠ .relocateLottery) (h2 : s ≠ .bootArg1)
      (v : BitVec (8 * b)) (hv : loadWord m (img.addr L s) = v) : loadWord m' (img.addr L s) = v :=
    (hload s hs h1 h2).trans hv
  have hr (h3 : 3 ≤ stage) (s : Symbol) (hs : s.isWord = true) (h1 : s ≠ .relocateLottery)
      (h2 : s ≠ .bootArg1) (v : BitVec (8 * b)) (hv : loadWord m (img.addr img.runAddr s) = v) :
      loadWord m' (img.addr img.runAddr s) = v :=
    (hrun h3 s hs h1 h2).trans hv
  constructor
  · exact hl _ rfl (by decide) (by decide) _ hm.run_addr
  · exact hl _ rfl (by decide) (by decide) _ hm.image_size
  · exact hl _ rfl (by decide) (by decide) _ hm.next_run
  · exact hl _ rfl (by decide) (by decide) _ hm.next_fdt
  · exact fun h => hl _ rfl (by decide) (by decide) _ (hm.status h)
  · exact fun h => hl _ rfl (by decide) (by decide) _ (hm.load_start h)
  · exact fun h => hl _ rfl (by decide) (by decide) _ (hm.load_spin h)
  · intro h
    obtain ⟨h1, h2, h3, h4⟩ := hm.run_copy h
    exact ⟨hr h _ rfl (by decide) (by decide) _ h1, hr h _ rfl (by decide) (by decide) _ h2,
      hr h _ rfl (by decide) (by decide) _ h3, hr h _ rfl (by decide) (by decide) _ h4⟩
  · exact fun h h8 => hr h _ rfl (by decide) (by decide) _ (hm.run_spin h h8)
  · exact fun h => hr (by omega) _ rfl (by decide) (by decide) _ (hm.run_spun h)

/-- The spin word of the run copy is zero up to its store, also before the copy
when the image is loaded where it runs. -/
theorem MemAt.spin_zero (hm : MemAt img L N F stage m) (hstage : L = img.runAddr ∨ 3 ≤ stage)
    (hlt : stage < 8) : loadWord m (img.addr img.runAddr .spinAddr) = (0 : BitVec (8 * b)) := by
  rcases Nat.lt_or_ge stage 3 with h | h
  · have heq : L = img.runAddr := hstage.resolve_right (by omega)
    rw [← heq]
    exact hm.load_spin (by omega)
  · exact hm.run_spin h hlt

theorem MemAt.in_place (hm : MemAt img L N F 2 m) (heq : L = img.runAddr) :
    MemAt img L N F 4 m where
  run_addr := hm.run_addr
  image_size := hm.image_size
  next_run := hm.next_run
  next_fdt := hm.next_fdt
  status := fun _ => hm.status (by omega)
  load_start := fun _ => hm.load_start (by omega)
  load_spin := fun h => absurd h (by omega)
  run_copy := fun _ => by
    have h1 := hm.run_addr
    have h2 := hm.load_start le_rfl
    have h3 := hm.next_run
    have h4 := hm.next_fdt
    rw [heq] at h1 h2 h3 h4
    exact ⟨h1, h2.trans heq.symm, h3, h4⟩
  run_spin := fun _ _ => hm.spin_zero (Or.inl heq) (by omega)
  run_spun := fun h => absurd h (by omega)

/-- The stages that differ only in what the boot hart is about to do. -/
theorem MemAt.later (hm : MemAt img L N F stage m) {stage' : Nat} (hle : stage ≤ stage')
    (h3 : 3 ≤ stage) (h8 : stage' < 8) : MemAt img L N F stage' m where
  run_addr := hm.run_addr
  image_size := hm.image_size
  next_run := hm.next_run
  next_fdt := hm.next_fdt
  status := fun h => hm.status (by omega)
  load_start := fun _ => hm.load_start (by omega)
  load_spin := fun h => absurd h (by omega)
  run_copy := fun _ => hm.run_copy h3
  run_spin := fun _ _ => hm.run_spin h3 (by omega)
  run_spun := fun h => absurd h (by omega)

end Stages

/-! ### The copy while the lottery goes on

Late harts count on in the load copy's lottery while the boot hart copies it, so
the lottery is the one word in which the two copies can differ. -/

/-- The words that `P` selects are the same in both copies, the lottery apart. -/
def Image.Copied (img : Image b) (L : BitVec (8 * b)) (P : Nat → Prop) (m : Memory (8 * b)) :
    Prop :=
  ∀ j, j < img.words → P j → b * j ≠ img.data →
    (loadWord m (img.runAddr + BitVec.ofNat (8 * b) (b * j)) : BitVec (8 * b)) =
      loadWord m (L + BitVec.ofNat (8 * b) (b * j))

/-- The run copy holds the whole image, the lottery apart. -/
def Image.Whole (img : Image b) (L : BitVec (8 * b)) (m : Memory (8 * b)) : Prop :=
  ∀ i, i < img.size → (i < img.data ∨ img.data + b ≤ i) →
    m (img.runAddr + BitVec.ofNat (8 * b) i) = m (L + BitVec.ofNat (8 * b) i)

section Copied

variable {img : Image b} {L N F : BitVec (8 * b)} {m m' : Memory (8 * b)}

theorem mul_apart {j k : Nat} (hne : j ≠ k) :
    b * j + b ≤ b * k ∨ b * k + b ≤ b * j := by
  rw [← Nat.mul_succ, ← Nat.mul_succ]
  rcases Nat.lt_or_gt_of_ne hne with hlt | hlt
  · exact Or.inl (Nat.mul_le_mul_left b hlt)
  · exact Or.inr (Nat.mul_le_mul_left b hlt)

theorem Image.data_eq_mul (img : Image b) : ∃ k, img.data = b * k := by
  have h := img.word_aligned .relocateLottery rfl
  obtain ⟨k, hk⟩ := Nat.dvd_of_mod_eq_zero h
  exact ⟨k, hk⟩

theorem Image.data_apart (img : Image b) {j : Nat} (hne : b * j ≠ img.data) :
    b * j + b ≤ img.data ∨ img.data + b ≤ b * j := by
  obtain ⟨k, hk⟩ := img.data_eq_mul
  rw [hk]
  apply mul_apart
  rintro rfl
  exact hne hk.symm

theorem Image.word_fits (img : Image b) {j : Nat} (hj : j < img.words) : b * j + b ≤ img.size := by
  rw [← Nat.mul_succ]
  exact img.mul_succ_le hj

theorem Image.Copied.lottery {P : Nat → Prop} (hcopied : img.Copied L P m)
    (hapart : img.Apart L) (v : Nat) :
    img.Copied L P (storeLE m (img.addr L .relocateLottery) 4 v) := by
  intro j hj hP hne
  have hfits := img.word_fits hj
  rw [hapart.lottery_kept (Or.inr rfl) hfits (fun _ => img.data_apart hne),
    hapart.lottery_kept (Or.inl rfl) hfits (fun _ => img.data_apart hne)]
  exact hcopied j hj hP hne

theorem Image.Copied.store {P : Nat → Prop} (hcopied : img.Copied L P m) (hapart : img.Apart L)
    (hne : L ≠ img.runAddr) {k : Nat} (hk : k < img.words) {v : BitVec (8 * b)}
    (hv : b * k ≠ img.data → v = loadWord m (L + BitVec.ofNat (8 * b) (b * k))) :
    img.Copied L (fun j => P j ∨ j = k)
      (storeWord m (img.runAddr + BitVec.ofNat (8 * b) (b * k)) v) := by
  intro j hj hP hlottery
  have hload : (loadWord (storeWord m (img.runAddr + BitVec.ofNat (8 * b) (b * k)) v)
      (L + BitVec.ofNat (8 * b) (b * j)) : BitVec (8 * b)) =
      loadWord m (L + BitVec.ofNat (8 * b) (b * j)) := by
    apply loadWord_storeWord_of_disjoint _ _ _ _ img.b_le
    exact hapart.words (Or.inr rfl) (Or.inl rfl) (img.word_fits hk) (img.word_fits hj)
      (fun heq => absurd heq.symm hne)
  rw [hload]
  rcases eq_or_ne j k with rfl | hjk
  · rw [loadWord_storeWord_same _ _ _ img.b_le]
    exact hv hlottery
  · rw [loadWord_storeWord_of_disjoint _ _ _ _ img.b_le]
    · exact hcopied j hj (hP.resolve_right hjk) hlottery
    · exact hapart.words (Or.inr rfl) (Or.inr rfl) (img.word_fits hk) (img.word_fits hj)
        (fun _ => mul_apart hjk.symm)

theorem Image.Copied.mono {P Q : Nat → Prop} (hcopied : img.Copied L P m)
    (hPQ : ∀ j, j < img.words → Q j → P j) : img.Copied L Q m :=
  fun j hj hQ => hcopied j hj (hPQ j hj hQ)

theorem Image.Copied.word (hcopied : img.Copied L (fun _ => True) m) (s : Symbol)
    (hs : s.isWord = true) (hne : s ≠ .relocateLottery) :
    (loadWord m (img.addr img.runAddr s) : BitVec (8 * b)) = loadWord m (img.addr L s) := by
  obtain ⟨j, hj⟩ := Nat.dvd_of_mod_eq_zero (img.word_aligned s hs)
  have hfit := img.word_le_size s hs
  have happ := img.words_apart s .relocateLottery hs rfl hne
  have hpos := img.b_pos
  unfold Image.addr
  rw [hj]
  apply hcopied j ?_ trivial
  · intro heq
    have hdata : img.offset .relocateLottery = img.data := rfl
    omega
  · apply Nat.lt_of_mul_lt_mul_left (a := b)
    rw [img.mul_words, ← hj]
    omega

theorem Image.Copied.whole (hcopied : img.Copied L (fun _ => True) m) : img.Whole L m := by
  intro i hi hlottery
  have hpos := img.b_pos
  have hsplit := Nat.div_add_mod i b
  have hmod := Nat.mod_lt i hpos
  have hword : i / b < img.words := by
    apply Nat.lt_of_mul_lt_mul_left (a := b)
    rw [img.mul_words]
    omega
  have hbyte := byte_of_loadWord_eq (hcopied (i / b) hword trivial (by omega)) (i % b) hmod
  rw [add_assoc, add_assoc, ← BitVec.ofNat_add, hsplit] at hbyte
  exact hbyte

/-- The copy of the last word makes the run copy one of the protocol. -/
theorem MemAt.copied (hm : MemAt img L N F 2 m) (hcopied : img.Copied L (fun _ => True) m) :
    MemAt img L N F 3 m where
  run_addr := hm.run_addr
  image_size := hm.image_size
  next_run := hm.next_run
  next_fdt := hm.next_fdt
  status := fun _ => hm.status (by omega)
  load_start := fun _ => hm.load_start (by omega)
  load_spin := fun h => absurd h (by omega)
  run_copy := fun _ => ⟨(hcopied.word _ rfl (by decide)).trans hm.run_addr,
    (hcopied.word _ rfl (by decide)).trans (hm.load_start le_rfl),
    (hcopied.word _ rfl (by decide)).trans hm.next_run,
    (hcopied.word _ rfl (by decide)).trans hm.next_fdt⟩
  run_spin := fun _ _ => (hcopied.word _ rfl (by decide)).trans (hm.load_spin (by omega))
  run_spun := fun h => absurd h (by omega)

end Copied

/-! ### The boot hart -/

/-- The registers of the boot hart at each of its program points. -/
inductive BootAt (img : Image b) (L N F : BitVec (8 * b)) (m : Memory (8 * b)) : Hart b → Prop
  | save {h : Hart b} (hpc : h.pc = .saveLoadStart) (hbase : h.base = L) : BootAt img L N F m h
  | entry {h : Hart b} (hpc : h.pc = .relocate) (hbase : h.base = L) : BootAt img L N F m h
  | sized {h : Hart b} (hpc : h.pc = .relocateSize) (hbase : h.base = L)
      (ht0 : h.t0 = img.runAddr) : BootAt img L N F m h
  | placed {h : Hart b} (hpc : h.pc = .relocateLoadStart) (hbase : h.base = L)
      (ht0 : h.t0 = img.runAddr) (ht1 : h.t1 = BitVec.ofNat (8 * b) img.size) :
      BootAt img L N F m h
  | hang {h : Hart b} (hpc : h.pc = .startHang) (hbase : h.base = L) : BootAt img L N F m h
  | lowerLoad {h : Hart b} {k : Nat} (hpc : h.pc = .copyToLowerLoad) (hregs : LowerRegs img L k h)
      (hk : k < img.words) (hlt : img.runAddr.toInt < L.toInt)
      (hcopied : img.Copied L (· < k) m) : BootAt img L N F m h
  | lowerStore {h : Hart b} {k : Nat} (hpc : h.pc = .copyToLowerStore)
      (hregs : LowerRegs img L k h) (hk : k < img.words) (hlt : img.runAddr.toInt < L.toInt)
      (hcopied : img.Copied L (· < k) m)
      (ht3 : b * k ≠ img.data → h.t3 = loadWord m (L + BitVec.ofNat (8 * b) (b * k))) :
      BootAt img L N F m h
  | upperLoad {h : Hart b} {r : Nat} (hpc : h.pc = .copyToUpperLoad)
      (hregs : UpperRegs img L (b * (r + 1)) h) (hr : r < img.words) (hne : L ≠ img.runAddr)
      (hcopied : img.Copied L (r < ·) m) : BootAt img L N F m h
  | upperStore {h : Hart b} {r : Nat} (hpc : h.pc = .copyToUpperStore)
      (hregs : UpperRegs img L (b * r) h) (hr : r < img.words) (hne : L ≠ img.runAddr)
      (hcopied : img.Copied L (r < ·) m)
      (ht2 : b * r ≠ img.data → h.t2 = loadWord m (L + BitVec.ofNat (8 * b) (b * r))) :
      BootAt img L N F m h
  | jump {h : Hart b} (hpc : h.pc = .relocateJump (img.addr img.runAddr .relocateDone))
      (hbase : h.base = L) (hne : L ≠ img.runAddr) (hcopied : img.Copied L (fun _ => True) m) :
      BootAt img L N F m h
  | done {h : Hart b} (hpc : h.pc = .relocateDone) (hbase : h.base = img.runAddr) :
      BootAt img L N F m h
  | loadStart {h : Hart b} (hpc : h.pc = .doneLoadStart) (hbase : h.base = img.runAddr)
      (ht0 : h.t0 = img.addr img.runAddr .bootStatus) (ht1 : h.t1 = img.runAddr) :
      BootAt img L N F m h
  | status {h : Hart b} (hpc : h.pc = .doneStatus) (hbase : h.base = img.runAddr)
      (ht0 : h.t0 = img.addr L .bootStatus) : BootAt img L N F m h
  | run {h : Hart b} (hbase : h.base = img.runAddr)
      (hpc : h.pc = .doneFence ∨ h.pc = .saveBootArg1 ∨ h.pc = .stackTop ∨ h.pc = .loadBootArg1 ∨
        h.pc = .main ∨ h.pc = .spinNextRun ∨ h.pc = .spinFence ∨ h.pc = .jumpFdt) :
      BootAt img L N F m h
  | bss {h : Hart b} {j : Nat} (hpc : h.pc = .bssZero) (hbase : h.base = img.runAddr)
      (ht1 : h.t1 = img.runAddr + BitVec.ofNat (8 * b) (img.bssStart + b * j))
      (ht2 : h.t2 = img.addr img.runAddr .bssEnd) (hj : img.bssStart + b * j < img.bssEnd) :
      BootAt img L N F m h
  | spinStore {h : Hart b} (hpc : h.pc = .spinStore) (hbase : h.base = img.runAddr)
      (ht0 : h.t0 = img.addr img.runAddr .spinAddr) (ht1 : h.t1 = N) : BootAt img L N F m h
  | jumpRun {h : Hart b} (hpc : h.pc = .jumpRun) (hbase : h.base = img.runAddr) (ha1 : h.a1 = F) :
      BootAt img L N F m h
  | gone {h : Hart b} (hpc : h.pc = .nextStage N) (ha1 : h.a1 = F) : BootAt img L N F m h

section Boot

variable {img : Image b} {L N F : BitVec (8 * b)} {m m' : Memory (8 * b)} {h h' : Hart b}

theorem BootAt.lottery (hs : BootAt img L N F m h) (hapart : img.Apart L) (v : Nat) :
    BootAt img L N F (storeLE m (img.addr L .relocateLottery) 4 v) h := by
  have hword (k : Nat) (hk : k < img.words) (hne : b * k ≠ img.data) :
      (loadWord (storeLE m (img.addr L .relocateLottery) 4 v)
        (L + BitVec.ofNat (8 * b) (b * k)) : BitVec (8 * b)) =
        loadWord m (L + BitVec.ofNat (8 * b) (b * k)) :=
    hapart.lottery_kept (Or.inl rfl) (img.word_fits hk) (fun _ => img.data_apart hne) v
  cases hs with
  | save hpc hbase => exact .save hpc hbase
  | entry hpc hbase => exact .entry hpc hbase
  | sized hpc hbase ht0 => exact .sized hpc hbase ht0
  | placed hpc hbase ht0 ht1 => exact .placed hpc hbase ht0 ht1
  | hang hpc hbase => exact .hang hpc hbase
  | lowerLoad hpc hregs hk hlt hcopied =>
      exact .lowerLoad hpc hregs hk hlt (hcopied.lottery hapart v)
  | lowerStore hpc hregs hk hlt hcopied ht3 =>
      exact .lowerStore hpc hregs hk hlt (hcopied.lottery hapart v)
        (fun hdata => (ht3 hdata).trans (hword _ hk hdata).symm)
  | upperLoad hpc hregs hr hne hcopied =>
      exact .upperLoad hpc hregs hr hne (hcopied.lottery hapart v)
  | upperStore hpc hregs hr hne hcopied ht2 =>
      exact .upperStore hpc hregs hr hne (hcopied.lottery hapart v)
        (fun hdata => (ht2 hdata).trans (hword _ hr hdata).symm)
  | jump hpc hbase hne hcopied => exact .jump hpc hbase hne (hcopied.lottery hapart v)
  | done hpc hbase => exact .done hpc hbase
  | loadStart hpc hbase ht0 ht1 => exact .loadStart hpc hbase ht0 ht1
  | status hpc hbase ht0 => exact .status hpc hbase ht0
  | run hbase hpc => exact .run hbase hpc
  | bss hpc hbase ht1 ht2 hj => exact .bss hpc hbase ht1 ht2 hj
  | spinStore hpc hbase ht0 ht1 => exact .spinStore hpc hbase ht0 ht1
  | jumpRun hpc hbase ha1 => exact .jumpRun hpc hbase ha1
  | gone hpc ha1 => exact .gone hpc ha1

/-- Stores of the boot hart outside the lottery word keep the count. -/
def CountKept (img : Image b) (L : BitVec (8 * b)) (m m' : Memory (8 * b)) : Prop :=
  loadLE m' (img.addr L .relocateLottery) 4 = loadLE m (img.addr L .relocateLottery) 4

/-- What one step of the boot hart keeps. -/
structure BootNext (img : Image b) (L N F : BitVec (8 * b)) (m m' : Memory (8 * b))
    (pc : Pc b) (h' : Hart b) : Prop where
  boot_at : BootAt img L N F m' h'
  mem_at : MemAt img L N F h'.pc.stage m'
  count : CountKept img L m m'
  stage_le : pc.stage ≤ h'.pc.stage
  stage_next : pc.stage ≤ 2 → h'.pc.stage ≤ 3 ∨ L = img.runAddr

theorem BootNext.of_stage_eq {pc : Pc b} (hs : BootAt img L N F m' h')
    (hstage : h'.pc.stage = pc.stage) (hm : MemAt img L N F pc.stage m')
    (hcount : CountKept img L m m') : BootNext img L N F m m' pc h' :=
  ⟨hs, hstage ▸ hm, hcount, hstage.ge, fun h => Or.inl (by omega)⟩

theorem MemAt.saved (hm : MemAt img L N F 1 m) (hapart : img.Apart L) :
    MemAt img L N F 2 (storeWord m (img.addr L .loadStart) (img.addr L .start)) := by
  have hkept (s : Symbol) (hs : s.isWord = true) (hne : .loadStart ≠ s) :=
    hapart.storeWord_kept (m := m) (Or.inl rfl) (Or.inl rfl) rfl hs (fun _ => hne)
      (img.addr L .start)
  have hstart : img.addr L .start = L := by simp [Image.addr, Image.offset]
  constructor
  · exact (hkept _ rfl (by decide)).trans hm.run_addr
  · exact (hkept _ rfl (by decide)).trans hm.image_size
  · exact (hkept _ rfl (by decide)).trans hm.next_run
  · exact (hkept _ rfl (by decide)).trans hm.next_fdt
  · exact fun _ => (hkept _ rfl (by decide)).trans (hm.status (by omega))
  · exact fun _ => (loadWord_storeWord_same _ _ _ img.b_le).trans hstart
  · exact fun _ => (hkept _ rfl (by decide)).trans (hm.load_spin (by omega))
  · exact fun h => absurd h (by omega)
  · exact fun h => absurd h (by omega)
  · exact fun h => absurd h (by omega)

/-- From the release on, a change that keeps every word but the boot status and the spin word
keeps the stage, up to the spin word of the run copy. -/
theorem MemAt.after_release (hm : MemAt img L N F stage m) {stage' : Nat} (hstage : 4 ≤ stage)
    (hstage' : 5 ≤ stage')
    (hkept : ∀ base, img.IsCopy L base → ∀ s : Symbol, s.isWord = true → s ≠ .bootStatus →
      s ≠ .spinAddr →
        loadWord m' (img.addr base s) = (loadWord m (img.addr base s) : BitVec (8 * b)))
    (hspin : stage' < 8 → loadWord m' (img.addr img.runAddr .spinAddr) = (0 : BitVec (8 * b)))
    (hspun : 8 ≤ stage' → loadWord m' (img.addr img.runAddr .spinAddr) = N) :
    MemAt img L N F stage' m' := by
  obtain ⟨h1, h2, h3, h4⟩ := hm.run_copy (by omega)
  constructor
  · exact (hkept _ (Or.inl rfl) _ rfl (by decide) (by decide)).trans hm.run_addr
  · exact (hkept _ (Or.inl rfl) _ rfl (by decide) (by decide)).trans hm.image_size
  · exact (hkept _ (Or.inl rfl) _ rfl (by decide) (by decide)).trans hm.next_run
  · exact (hkept _ (Or.inl rfl) _ rfl (by decide) (by decide)).trans hm.next_fdt
  · exact fun h => absurd h (by omega)
  · exact fun _ =>
      (hkept _ (Or.inl rfl) _ rfl (by decide) (by decide)).trans (hm.load_start (by omega))
  · exact fun h => absurd h (by omega)
  · exact fun _ => ⟨(hkept _ (Or.inr rfl) _ rfl (by decide) (by decide)).trans h1,
      (hkept _ (Or.inr rfl) _ rfl (by decide) (by decide)).trans h2,
      (hkept _ (Or.inr rfl) _ rfl (by decide) (by decide)).trans h3,
      (hkept _ (Or.inr rfl) _ rfl (by decide) (by decide)).trans h4⟩
  · exact fun _ => hspin
  · exact hspun

theorem MemAt.released (hm : MemAt img L N F 4 m) (hapart : img.Apart L) (v : BitVec (8 * b)) :
    MemAt img L N F 5 (storeWord m (img.addr L .bootStatus) v) := by
  have hkept (base : BitVec (8 * b)) (hc : img.IsCopy L base) (s : Symbol)
      (hs : s.isWord = true) (hne : .bootStatus ≠ s) :=
    hapart.storeWord_kept (m := m) (Or.inl rfl) hc rfl hs (fun _ => hne) v
  refine hm.after_release le_rfl le_rfl (fun base hc s hs hne _ => hkept base hc s hs hne.symm)
    (fun _ => ?_) (fun h => absurd h (by omega))
  exact (hkept _ (Or.inr rfl) _ rfl (by decide)).trans (hm.run_spin (by omega) (by omega))

theorem MemAt.spun (hm : MemAt img L N F 7 m) (hapart : img.Apart L) :
    MemAt img L N F 8 (storeWord m (img.addr img.runAddr .spinAddr) N) := by
  have hkept (base : BitVec (8 * b)) (hc : img.IsCopy L base) (s : Symbol)
      (hs : s.isWord = true) (hne : .spinAddr ≠ s) :=
    hapart.storeWord_kept (m := m) (Or.inr rfl) hc rfl hs (fun _ => hne) N
  exact hm.after_release (by decide) (by decide)
    (fun base hc s hs _ hne => hkept base hc s hs hne.symm) (fun h => absurd h (by omega))
    (fun _ => loadWord_storeWord_same _ _ _ img.b_le)

/-- A store that meets neither the load copy nor a word of the run copy. -/
theorem CountKept.of_disjoint {a : BitVec (8 * b)} (v : BitVec (8 * b))
    (hd : Disjoint a b (img.addr L .relocateLottery) b) : CountKept img L m (storeWord m a v) := by
  apply lottery_count_kept
  intro x hx
  exact storeWord_of_not_inRange _ _ _ _ (fun hin => hd x hin hx)

theorem CountKept.word (hapart : img.Apart L) {base : BitVec (8 * b)} (hc : img.IsCopy L base)
    (v : BitVec (8 * b)) (s : Symbol) (hs : s.isWord = true) (hne : s ≠ .relocateLottery) :
    CountKept img L m (storeWord m (img.addr base s) v) := by
  apply CountKept.of_disjoint
  exact hapart.words hc (Or.inl rfl) (img.word_le_size s hs)
    (img.word_le_size .relocateLottery rfl) (fun _ => img.words_apart s _ hs rfl hne)

theorem MemAt.copyStore (hm : MemAt img L N F 2 m) (hapart : img.Apart L) (hne : L ≠ img.runAddr)
    {k : Nat} (hk : k < img.words) (v : BitVec (8 * b)) :
    MemAt img L N F 2 (storeWord m (img.runAddr + BitVec.ofNat (8 * b) (b * k)) v) ∧
      CountKept img L m (storeWord m (img.runAddr + BitVec.ofNat (8 * b) (b * k)) v) := by
  have hdisj (s : Symbol) (hs : s.isWord = true) :
      Disjoint (img.runAddr + BitVec.ofNat (8 * b) (b * k)) b (img.addr L s) b :=
    hapart.words (Or.inr rfl) (Or.inl rfl) (img.word_fits hk) (img.word_le_size s hs)
      (fun heq => absurd heq.symm hne)
  constructor
  · apply hm.of_kept
    · intro s hs _ _
      exact loadWord_storeWord_of_disjoint _ _ _ _ img.b_le (hdisj s hs)
    · exact fun h => absurd h (by omega)
  · exact CountKept.of_disjoint v (hdisj _ rfl)

theorem bss_disjoint (hapart : img.Apart L) {base : BitVec (8 * b)} (hc : img.IsCopy L base)
    {i : Nat} (hstart : img.bssStart ≤ i) (hend : i + b ≤ img.bssEnd) (s : Symbol)
    (hs : s.isWord = true) :
    Disjoint (img.runAddr + BitVec.ofNat (8 * b) i) b (img.addr base s) b := by
  have hword := img.word_le s hs
  have hle := img.bss_le
  have htable := img.blobTable_le
  exact hapart.words (Or.inr rfl) hc (by omega) (img.word_le_size s hs) (fun _ => by omega)

/-- The end of `_relocate`: the hart goes on in place, or it starts a copy. -/
theorem BootAt.branch (hm : MemAt img L N F 2 m) (hapart : img.Apart L)
    (hord : L ≠ img.runAddr → img.CopyOrdered L) (hbase : h.base = L) (ht0 : h.t0 = img.runAddr)
    (ht1 : h.t1 = BitVec.ofNat (8 * b) img.size) (ht2 : h.t2 = L) :
    BootNext img L N F m m .relocateLoadStart (Hart.relocateBranch img h) := by
  have hbase' := (Hart.relocateBranch_target img h).1.trans hbase
  rcases eq_or_ne L img.runAddr with heq | hne
  · have hpc : (Hart.relocateBranch img h).pc = .relocateDone := by
      simp [Hart.relocateBranch, ht0, ht2, heq]
    exact ⟨.done hpc (hbase'.trans heq), by rw [hpc]; exact hm.in_place heq, rfl,
      by simp [hpc, Pc.stage], fun _ => Or.inr heq⟩
  · have hwords := img.words_pos
    have hbelow := (hord hne).wordsBelow (hapart.resolve_left hne)
    rcases relocateBranch_cases img L h (hord hne) hbelow hne hbase ht0 ht1 ht2 with
      ⟨hpc, _⟩ | ⟨hpc, hregs, hlt, _⟩ | ⟨hpc, hregs, _⟩
    · exact .of_stage_eq (.hang hpc hbase') (by rw [hpc]; rfl) hm rfl
    · have hcopied : img.Copied L (· < 0) m := fun j _ hj => absurd hj (by omega)
      exact .of_stage_eq (.lowerLoad hpc hregs hwords hlt hcopied) (by rw [hpc]; rfl) hm rfl
    · have hcopied : img.Copied L (img.words - 1 < ·) m := fun j hj hlt => absurd hlt (by omega)
      have hsize : b * (img.words - 1 + 1) = img.size := by
        rw [Nat.sub_add_cancel hwords, img.mul_words]
      rw [← hsize] at hregs
      exact .of_stage_eq (.upperLoad hpc hregs (by omega) hne hcopied) (by rw [hpc]; rfl) hm rfl

theorem BootNext.loop_end {pc : Pc b} (hstage : pc.stage = 2) (hm : MemAt img L N F 2 m')
    (hcount : CountKept img L m m') (hne : L ≠ img.runAddr)
    (hall : img.Copied L (fun _ => True) m')
    (hpc' : h'.pc = .relocateJump (img.addr img.runAddr .relocateDone)) (hbase' : h'.base = L) :
    BootNext img L N F m m' pc h' :=
  ⟨.jump hpc' hbase' hne hall, by rw [hpc']; exact hm.copied hall, hcount,
    by rw [hstage, hpc']; exact Nat.le_succ 2, by simp [hpc', Pc.stage]⟩

/-- A store of the ascending loop: the next word, or the jump. -/
theorem BootNext.lower (hm : MemAt img L N F 2 m) (hapart : img.Apart L)
    (hlt : img.runAddr.toInt < L.toInt) {k : Nat} (hk : k < img.words)
    (hcopied : img.Copied L (· < k) m) {v : BitVec (8 * b)}
    (hv : b * k ≠ img.data → v = loadWord m (L + BitVec.ofNat (8 * b) (b * k)))
    (hnext : (b * (k + 1) < img.size ∧ h'.pc = .copyToLowerLoad ∧ LowerRegs img L (k + 1) h') ∨
      (b * (k + 1) = img.size ∧ h'.pc = .relocateJump (img.addr img.runAddr .relocateDone) ∧
        h'.base = L)) :
    BootNext img L N F m (storeWord m (img.runAddr + BitVec.ofNat (8 * b) (b * k)) v)
      .copyToLowerStore h' := by
  have hne := (ne_of_toInt_lt hlt).symm
  obtain ⟨hm', hcount⟩ := hm.copyStore hapart hne hk v
  have hcopied' := hcopied.store hapart hne hk hv
  rcases hnext with ⟨hmore, hpc', hregs'⟩ | ⟨heq, hpc', hbase'⟩
  · have hk' : k + 1 < img.words := by
      rw [← img.mul_words] at hmore
      exact Nat.lt_of_mul_lt_mul_left hmore
    exact .of_stage_eq (.lowerLoad hpc' hregs' hk' hlt (hcopied'.mono (fun j _ hj => by omega)))
      (by rw [hpc']; rfl) hm' hcount
  · have hlast : k + 1 = img.words := by
      apply Nat.eq_of_mul_eq_mul_left img.b_pos
      rw [img.mul_words]
      exact heq
    exact .loop_end rfl hm' hcount hne (hcopied'.mono (fun j hj _ => by omega)) hpc' hbase'

theorem BootNext.upper (hm : MemAt img L N F 2 m) (hapart : img.Apart L) (hne : L ≠ img.runAddr)
    {r : Nat} (hr : r < img.words) (hcopied : img.Copied L (r < ·) m) {v : BitVec (8 * b)}
    (hv : b * r ≠ img.data → v = loadWord m (L + BitVec.ofNat (8 * b) (b * r)))
    (hnext : (0 < b * r ∧ h'.pc = .copyToUpperLoad ∧ UpperRegs img L (b * r) h') ∨
      (b * r = 0 ∧ h'.pc = .relocateJump (img.addr img.runAddr .relocateDone) ∧ h'.base = L)) :
    BootNext img L N F m (storeWord m (img.runAddr + BitVec.ofNat (8 * b) (b * r)) v)
      .copyToUpperStore h' := by
  obtain ⟨hm', hcount⟩ := hm.copyStore hapart hne hr v
  have hcopied' := hcopied.store hapart hne hr hv
  rcases hnext with ⟨hpos, hpc', hregs'⟩ | ⟨hzero, hpc', hbase'⟩
  · obtain ⟨q, rfl⟩ := Nat.exists_eq_succ_of_ne_zero (Nat.pos_of_mul_pos_left hpos).ne'
    exact .of_stage_eq (.upperLoad hpc' hregs' (by omega) hne
      (hcopied'.mono (fun j _ hj => by omega))) (by rw [hpc']; rfl) hm' hcount
  · have hr0 : r = 0 := by
      rcases Nat.mul_eq_zero.mp hzero with hb0 | hr0
      · exact absurd hb0 (by have := img.b_pos; omega)
      · exact hr0
    exact .loop_end rfl hm' hcount hne (hcopied'.mono (fun j _ _ => by omega)) hpc' hbase'

/-- A store of the bss loop: the next word, or the stack. -/
theorem BootNext.bss (hm : MemAt img L N F 5 m) (hapart : img.Apart L)
    (hbase : h.base = img.runAddr) {j : Nat}
    (ht1 : h.t1 = img.runAddr + BitVec.ofNat (8 * b) (img.bssStart + b * j))
    (ht2 : h.t2 = img.addr img.runAddr .bssEnd) (hj : img.bssStart + b * j < img.bssEnd) :
    BootNext img L N F m (storeWord m
      (img.runAddr + BitVec.ofNat (8 * b) (img.bssStart + b * j)) (0 : BitVec (8 * b)))
      .bssZero h.bssZeroNext := by
  have hfit := bss_next img hj
  have hm' : MemAt img L N F 5 (storeWord m
      (img.runAddr + BitVec.ofNat (8 * b) (img.bssStart + b * j)) (0 : BitVec (8 * b))) := by
    apply hm.of_kept
    · intro s hs _ _
      exact loadWord_storeWord_of_disjoint _ _ _ _ img.b_le
        (bss_disjoint hapart (Or.inl rfl) (by omega) hfit s hs)
    · intro _ s hs _ _
      exact loadWord_storeWord_of_disjoint _ _ _ _ img.b_le
        (bss_disjoint hapart (Or.inr rfl) (by omega) hfit s hs)
  have hcount : CountKept img L m (storeWord m
      (img.runAddr + BitVec.ofNat (8 * b) (img.bssStart + b * j)) (0 : BitVec (8 * b))) :=
    .of_disjoint _ (bss_disjoint hapart (Or.inl rfl) (by omega) hfit _ rfl)
  obtain ⟨hbase', ⟨hpc', ht1', ht2', hlt⟩ | hpc'⟩ := Hart.bssZeroNext_cases hbase ht1 ht2 hj
  · exact .of_stage_eq (.bss hpc' hbase' ht1' ht2' hlt) (by rw [hpc']) hm' hcount
  · exact .of_stage_eq (.run hbase' (by simp [hpc'])) (by rw [hpc']; rfl) hm' hcount

/-- The straight code in the run copy: from `_relocate_done` to bss, around `zstage_main`, and up
to the jump. -/
theorem BootAt.run_step (hbase : h.base = img.runAddr)
    (hpc : h.pc = .doneFence ∨ h.pc = .saveBootArg1 ∨ h.pc = .stackTop ∨ h.pc = .loadBootArg1 ∨
      h.pc = .main ∨ h.pc = .spinNextRun ∨ h.pc = .spinFence ∨ h.pc = .jumpFdt)
    (hm : MemAt img L N F h.pc.stage m) (hapart : img.Apart L)
    (hstep : Hart.step img (h, m) = some (h', m')) : BootNext img L N F m m' h.pc h' := by
  rcases hpc with hpc | hpc | hpc | hpc | hpc | hpc | hpc | hpc
  · rw [hpc] at hm ⊢
    simp only [Hart.step, Hart.action, hpc, Action.exec, Option.some.injEq,
      Prod.mk.injEq] at hstep
    obtain ⟨rfl, rfl⟩ := hstep
    exact .of_stage_eq (.run hbase (Or.inr (Or.inl rfl))) rfl hm rfl
  · rw [hpc] at hm ⊢
    simp only [Hart.step, Hart.action, hpc, Action.exec, Hart.la, hbase, Option.some.injEq,
      Prod.mk.injEq] at hstep
    obtain ⟨rfl, rfl⟩ := hstep
    refine .of_stage_eq (.bss (j := 0) rfl rfl ?_ rfl ?_) rfl (hm.of_kept ?_ ?_)
      (.word hapart (Or.inr rfl) _ .bootArg1 rfl (by decide))
    · simp [Image.addr, Image.offset]
    · simpa using img.bss_lt
    · intro s hs _ hne
      exact hapart.storeWord_kept (Or.inr rfl) (Or.inl rfl) rfl hs (fun _ => hne.symm) _
    · intro _ s hs _ hne
      exact hapart.storeWord_kept (Or.inr rfl) (Or.inr rfl) rfl hs (fun _ => hne.symm) _
  · rw [hpc] at hm ⊢
    simp only [Hart.step, Hart.action, hpc, Action.exec, Hart.la, hbase, Option.some.injEq,
      Prod.mk.injEq] at hstep
    obtain ⟨rfl, rfl⟩ := hstep
    exact .of_stage_eq (.run rfl (by simp)) rfl hm rfl
  · rw [hpc] at hm ⊢
    simp only [Hart.step, Hart.action, hpc, Action.exec, Hart.la, hbase, Option.some.injEq,
      Prod.mk.injEq] at hstep
    obtain ⟨rfl, rfl⟩ := hstep
    exact .of_stage_eq (.run rfl (by simp)) rfl hm rfl
  · simp [Hart.step, Hart.action, hpc, Action.exec] at hstep
  · rw [hpc] at hm ⊢
    simp only [Hart.step, Hart.action, hpc, Action.exec, Hart.la, hbase, Option.some.injEq,
      Prod.mk.injEq] at hstep
    obtain ⟨rfl, rfl⟩ := hstep
    exact .of_stage_eq (.spinStore rfl rfl rfl (hm.run_copy (by simp [Pc.stage])).2.2.1) rfl hm
      rfl
  · rw [hpc] at hm ⊢
    simp only [Hart.step, Hart.action, hpc, Action.exec, Option.some.injEq,
      Prod.mk.injEq] at hstep
    obtain ⟨rfl, rfl⟩ := hstep
    exact .of_stage_eq (.run hbase (by simp)) rfl hm rfl
  · rw [hpc] at hm ⊢
    simp only [Hart.step, Hart.action, hpc, Action.exec, Hart.la, hbase, Option.some.injEq,
      Prod.mk.injEq] at hstep
    obtain ⟨rfl, rfl⟩ := hstep
    exact .of_stage_eq (.jumpRun rfl rfl (hm.run_copy (by simp [Pc.stage])).2.2.2) rfl hm rfl

/-- The boot hart keeps its registers and the words of its stage at every step. -/
theorem BootAt.step (hs : BootAt img L N F m h) (hm : MemAt img L N F h.pc.stage m)
    (hapart : img.Apart L) (hord : L ≠ img.runAddr → img.CopyOrdered L)
    (hstep : Hart.step img (h, m) = some (h', m')) : BootNext img L N F m m' h.pc h' := by
  cases hs with
  | save hpc hbase =>
      rw [hpc] at hm ⊢
      simp only [Hart.step, Hart.action, hpc, Action.exec, Hart.la, hbase, Option.some.injEq,
        Prod.mk.injEq] at hstep
      obtain ⟨rfl, rfl⟩ := hstep
      exact ⟨.entry rfl rfl, hm.saved hapart,
        .word hapart (Or.inl rfl) _ .loadStart rfl (by decide), by simp [Pc.stage],
        by simp [Pc.stage]⟩
  | entry hpc hbase =>
      rw [hpc] at hm ⊢
      simp only [Hart.step, Hart.action, hpc, Action.exec, Hart.la, hbase, hm.run_addr,
        Option.some.injEq, Prod.mk.injEq] at hstep
      obtain ⟨rfl, rfl⟩ := hstep
      exact .of_stage_eq (.sized rfl rfl rfl) rfl hm rfl
  | sized hpc hbase ht0 =>
      rw [hpc] at hm ⊢
      simp only [Hart.step, Hart.action, hpc, Action.exec, Hart.la, hbase, hm.image_size,
        Option.some.injEq, Prod.mk.injEq] at hstep
      obtain ⟨rfl, rfl⟩ := hstep
      exact .of_stage_eq (.placed rfl rfl ht0 rfl) rfl hm rfl
  | placed hpc hbase ht0 ht1 =>
      rw [hpc] at hm ⊢
      simp only [Hart.step, Hart.action, hpc, Action.exec, Hart.la, hbase,
        hm.load_start le_rfl, Option.some.injEq, Prod.mk.injEq] at hstep
      obtain ⟨rfl, rfl⟩ := hstep
      exact BootAt.branch hm hapart hord rfl ht0 ht1 rfl
  | hang hpc hbase =>
      rw [hpc] at hm ⊢
      simp only [Hart.step, Hart.action, hpc, Action.exec, Option.some.injEq,
        Prod.mk.injEq] at hstep
      obtain ⟨rfl, rfl⟩ := hstep
      exact .of_stage_eq (.hang hpc hbase) (by rw [hpc]) hm rfl
  | @lowerLoad k hpc hregs hk hlt hcopied =>
      rw [hpc] at hm ⊢
      simp only [Hart.step, hregs.load hpc, Action.exec, Option.some.injEq,
        Prod.mk.injEq] at hstep
      obtain ⟨rfl, rfl⟩ := hstep
      exact .of_stage_eq (.lowerStore rfl ⟨hregs.base, hregs.t0, hregs.t1, hregs.t2, hregs.t4⟩ hk
        hlt hcopied (fun _ => rfl)) rfl hm rfl
  | @lowerStore k hpc hregs hk hlt hcopied ht3 =>
      rw [hpc] at hm ⊢
      have hrun := (hord (ne_of_toInt_lt hlt).symm).lower_top (Int.le_of_lt hlt)
      obtain ⟨next, haction, hnext⟩ := hregs.store hrun hpc (img.mul_succ_le hk)
      simp only [Hart.step, haction, Action.exec, Option.some.injEq, Prod.mk.injEq] at hstep
      obtain ⟨rfl, rfl⟩ := hstep
      exact .lower hm hapart hlt hk hcopied ht3 hnext
  | @upperLoad r hpc hregs hr hne hcopied =>
      rw [hpc] at hm ⊢
      rw [Nat.mul_succ] at hregs
      obtain ⟨next, haction, hnext⟩ := hregs.load hpc
      simp only [Hart.step, haction, Action.exec, Option.some.injEq, Prod.mk.injEq] at hstep
      obtain ⟨rfl, rfl⟩ := hstep
      obtain ⟨hpc', hregs', ht2⟩ := hnext (loadWord m (L + BitVec.ofNat (8 * b) (b * r)))
      exact .of_stage_eq (.upperStore hpc' hregs' hr hne hcopied (fun _ => ht2))
        (by rw [hpc']; rfl) hm rfl
  | @upperStore r hpc hregs hr hne hcopied ht2 =>
      rw [hpc] at hm ⊢
      have hpos := img.b_pos
      have hfits := img.word_fits hr
      have hrun := (hord hne).run_top
      obtain ⟨next, haction, hnext⟩ := hregs.store (by omega) hpc
      simp only [Hart.step, haction, Action.exec, Option.some.injEq, Prod.mk.injEq] at hstep
      obtain ⟨rfl, rfl⟩ := hstep
      exact .upper hm hapart hne hr hcopied ht2 hnext
  | jump hpc hbase hne hcopied =>
      rw [hpc] at hm ⊢
      simp only [Hart.step, Hart.action, hpc, Action.exec, Hart.land, if_true,
        Option.some.injEq, Prod.mk.injEq] at hstep
      obtain ⟨rfl, rfl⟩ := hstep
      exact ⟨.done rfl rfl, hm.later (by simp [Pc.stage]) le_rfl (by simp [Pc.stage]), rfl,
        by simp [Pc.stage], by simp [Pc.stage]⟩
  | done hpc hbase =>
      rw [hpc] at hm ⊢
      simp only [Hart.step, Hart.action, hpc, Action.exec, Hart.la, hbase, Option.some.injEq,
        Prod.mk.injEq] at hstep
      obtain ⟨rfl, rfl⟩ := hstep
      exact .of_stage_eq (.loadStart rfl rfl rfl (hm.run_copy (by simp [Pc.stage])).1) rfl hm rfl
  | loadStart hpc hbase ht0 ht1 =>
      rw [hpc] at hm ⊢
      simp only [Hart.step, Hart.action, hpc, Action.exec, Hart.la, hbase, ht0, ht1,
        (hm.run_copy (by simp [Pc.stage])).2.1, Option.some.injEq, Prod.mk.injEq] at hstep
      obtain ⟨rfl, rfl⟩ := hstep
      refine .of_stage_eq (.status rfl rfl ?_) rfl hm rfl
      simp only [Image.addr]
      ring
  | status hpc hbase ht0 =>
      rw [hpc] at hm ⊢
      simp only [Hart.step, Hart.action, hpc, Action.exec, ht0, Option.some.injEq,
        Prod.mk.injEq] at hstep
      obtain ⟨rfl, rfl⟩ := hstep
      exact ⟨.run hbase (Or.inl rfl), hm.released hapart _,
        .word hapart (Or.inl rfl) _ .bootStatus rfl (by decide), by simp [Pc.stage],
        by simp [Pc.stage]⟩
  | run hbase hpc => exact BootAt.run_step hbase hpc hm hapart hstep
  | @bss j hpc hbase ht1 ht2 hj =>
      rw [hpc] at hm ⊢
      simp only [Hart.step, Hart.action, hpc, Action.exec, ht1, Option.some.injEq,
        Prod.mk.injEq] at hstep
      obtain ⟨rfl, rfl⟩ := hstep
      exact .bss hm hapart hbase ht1 ht2 hj
  | spinStore hpc hbase ht0 ht1 =>
      rw [hpc] at hm ⊢
      simp only [Hart.step, Hart.action, hpc, Action.exec, ht0, ht1, Option.some.injEq,
        Prod.mk.injEq] at hstep
      obtain ⟨rfl, rfl⟩ := hstep
      exact ⟨.run hbase (by simp), hm.spun hapart,
        .word hapart (Or.inr rfl) _ .spinAddr rfl (by decide), by simp [Pc.stage],
        by simp [Pc.stage]⟩
  | jumpRun hpc hbase ha1 =>
      rw [hpc] at hm ⊢
      simp only [Hart.step, Hart.action, hpc, Action.exec, Hart.la, hbase,
        (hm.run_copy (by simp [Pc.stage])).2.2.1, Option.some.injEq, Prod.mk.injEq] at hstep
      obtain ⟨rfl, rfl⟩ := hstep
      exact .of_stage_eq (.gone rfl ha1) rfl hm rfl
  | gone hpc ha1 => simp [Hart.step, Hart.action, hpc, Action.exec] at hstep

end Boot

end ZStage.Head
