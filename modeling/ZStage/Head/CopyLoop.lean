import ZStage.Head.Guards

/-!
The ascending and the descending copy loop of `_relocate`, one load and one
store at a time, and the states that one hart goes through while it relocates
the image alone (`RelocState`).
-/

namespace ZStage.Head

open ZStage.Lib.ByteMemory

variable {b : Nat}

theorem ofNat_mul_succ (k : Nat) :
    BitVec.ofNat (8 * b) (b * k) + BitVec.ofNat (8 * b) b = BitVec.ofNat (8 * b) (b * (k + 1)) := by
  rw [Nat.mul_succ, BitVec.ofNat_add]

theorem LowerRegs.load {img : Image b} {L : BitVec (8 * b)} {k : Nat} {h : Hart b}
    (hr : LowerRegs img L k h) (hpc : h.pc = .copyToLowerLoad) :
    h.action img = .load (L + BitVec.ofNat (8 * b) (b * k))
      (fun v => { h with t3 := v, pc := .copyToLowerStore }) := by
  simp [Hart.action, hpc, hr.t2]

/-- One store of the ascending loop, and where the branch goes from it. -/
theorem LowerRegs.store_branch {img : Image b} {L : BitVec (8 * b)} {k : Nat} {h : Hart b}
    (hr : LowerRegs img L k h) (hpc : h.pc = .copyToLowerStore) :
    ∃ next, h.action img = .store (img.runAddr + BitVec.ofNat (8 * b) (b * k)) h.t3 next ∧
      (((img.runAddr + BitVec.ofNat (8 * b) (b * (k + 1))).toInt <
            (img.runAddr + BitVec.ofNat (8 * b) img.size).toInt ∧
          next.pc = .copyToLowerLoad ∧ LowerRegs img L (k + 1) next) ∨
        ((img.runAddr + BitVec.ofNat (8 * b) img.size).toInt ≤
            (img.runAddr + BitVec.ofNat (8 * b) (b * (k + 1))).toInt ∧
          next.pc = .relocateJump (img.addr img.runAddr .relocateDone) ∧ next.base = L)) := by
  have ht0 : h.t0 + BitVec.ofNat (8 * b) b =
      img.runAddr + BitVec.ofNat (8 * b) (b * (k + 1)) := by
    rw [hr.t0, add_assoc, ofNat_mul_succ]
  have ht2 : h.t2 + BitVec.ofNat (8 * b) b = L + BitVec.ofNat (8 * b) (b * (k + 1)) := by
    rw [hr.t2, add_assoc, ofNat_mul_succ]
  refine ⟨h.copyToLowerNext, by simp [Hart.action, hpc, hr.t0], ?_⟩
  simp only [Hart.copyToLowerNext, ht0, ht2, hr.t1, hr.t4]
  split
  · rename_i hslt
    exact Or.inl ⟨BitVec.slt_iff_toInt_lt.mp hslt, rfl, hr.base, rfl, rfl, rfl, rfl⟩
  · rename_i hslt
    rw [BitVec.slt_iff_toInt_lt, Int.not_lt] at hslt
    exact Or.inr ⟨hslt, rfl, hr.base⟩

/-- For a run copy that does not cross the sign boundary the branch counts the words
to the end of the image. -/
theorem LowerRegs.store {img : Image b} {L : BitVec (8 * b)} {k : Nat} {h : Hart b}
    (hr : LowerRegs img L k h) (hrun : img.runAddr.toInt + img.size < 2 ^ (8 * b - 1))
    (hpc : h.pc = .copyToLowerStore) (hk : b * (k + 1) ≤ img.size) :
    ∃ next, h.action img = .store (img.runAddr + BitVec.ofNat (8 * b) (b * k)) h.t3 next ∧
      ((b * (k + 1) < img.size ∧ next.pc = .copyToLowerLoad ∧ LowerRegs img L (k + 1) next) ∨
        (b * (k + 1) = img.size ∧ next.pc = .relocateJump (img.addr img.runAddr .relocateDone) ∧
          next.base = L)) := by
  obtain ⟨next, haction, hnext⟩ := hr.store_branch hpc
  refine ⟨next, haction, ?_⟩
  rw [toInt_add_ofNat _ _ (by omega), toInt_add_ofNat _ _ hrun] at hnext
  rcases hnext with ⟨hlt, hnext⟩ | ⟨hge, hnext⟩
  · exact Or.inl ⟨by omega, hnext⟩
  · exact Or.inr ⟨by omega, hnext⟩

theorem UpperRegs.load {img : Image b} {L : BitVec (8 * b)} {r : Nat} {h : Hart b}
    (hr : UpperRegs img L (r + b) h) (hpc : h.pc = .copyToUpperLoad) :
    ∃ next, h.action img = .load (L + BitVec.ofNat (8 * b) r) next ∧
      ∀ v, (next v).pc = .copyToUpperStore ∧ UpperRegs img L r (next v) ∧ (next v).t2 = v := by
  have ht3 : h.t3 - BitVec.ofNat (8 * b) b = L + BitVec.ofNat (8 * b) r := by
    rw [hr.t3, BitVec.ofNat_add]
    ring
  have ht1 : h.t1 - BitVec.ofNat (8 * b) b = img.runAddr + BitVec.ofNat (8 * b) r := by
    rw [hr.t1, BitVec.ofNat_add]
    ring
  refine ⟨_, by simp only [Hart.action, hpc, ht3]; rfl, ?_⟩
  intro v
  exact ⟨rfl, ⟨hr.base, hr.t0, ht1, rfl, hr.t4⟩, rfl⟩

/-- One store of the descending loop, and where the branch goes from it. -/
theorem UpperRegs.store_branch {img : Image b} {L : BitVec (8 * b)} {r : Nat} {h : Hart b}
    (hr : UpperRegs img L r h) (hpc : h.pc = .copyToUpperStore) :
    ∃ next, h.action img = .store (img.runAddr + BitVec.ofNat (8 * b) r) h.t2 next ∧
      ((img.runAddr.toInt < (img.runAddr + BitVec.ofNat (8 * b) r).toInt ∧
          next.pc = .copyToUpperLoad ∧ UpperRegs img L r next) ∨
        ((img.runAddr + BitVec.ofNat (8 * b) r).toInt ≤ img.runAddr.toInt ∧
          next.pc = .relocateJump (img.addr img.runAddr .relocateDone) ∧ next.base = L)) := by
  refine ⟨h.copyToUpperNext, by simp [Hart.action, hpc, hr.t1], ?_⟩
  simp only [Hart.copyToUpperNext, hr.t0, hr.t1, hr.t4]
  split
  · rename_i hslt
    exact Or.inl ⟨BitVec.slt_iff_toInt_lt.mp hslt, rfl, hr.base, rfl, rfl, hr.t3, rfl⟩
  · rename_i hslt
    rw [BitVec.slt_iff_toInt_lt, Int.not_lt] at hslt
    exact Or.inr ⟨hslt, rfl, hr.base⟩

theorem UpperRegs.store {img : Image b} {L : BitVec (8 * b)} {r : Nat} {h : Hart b}
    (hr : UpperRegs img L r h) (htop : img.runAddr.toInt + r < 2 ^ (8 * b - 1))
    (hpc : h.pc = .copyToUpperStore) :
    ∃ next, h.action img = .store (img.runAddr + BitVec.ofNat (8 * b) r) h.t2 next ∧
      ((0 < r ∧ next.pc = .copyToUpperLoad ∧ UpperRegs img L r next) ∨
        (r = 0 ∧ next.pc = .relocateJump (img.addr img.runAddr .relocateDone) ∧
          next.base = L)) := by
  obtain ⟨next, haction, hnext⟩ := hr.store_branch hpc
  refine ⟨next, haction, ?_⟩
  rw [toInt_add_ofNat _ _ htop] at hnext
  rcases hnext with ⟨hlt, hnext⟩ | ⟨hge, hnext⟩
  · exact Or.inl ⟨by omega, hnext⟩
  · exact Or.inr ⟨by omega, hnext⟩

/-! ### The relocation as a run

`RelocState img L m0 n h m` lists what a hart and memory can be while the hart
relocates from the memory `m0`, with `n` a bound on the steps that are left. -/

inductive RelocState (img : Image b) (L : BitVec (8 * b)) (m0 : Memory (8 * b)) :
    Nat → Hart b → Memory (8 * b) → Prop
  | entry {h : Hart b} (hpc : h.pc = .relocate) (hbase : h.base = L) :
      RelocState img L m0 (2 * img.words + 3) h m0
  | sized {h : Hart b} (hpc : h.pc = .relocateSize) (hbase : h.base = L)
      (ht0 : h.t0 = img.runAddr) :
      RelocState img L m0 (2 * img.words + 2) h m0
  | placed {h : Hart b} (hpc : h.pc = .relocateLoadStart) (hbase : h.base = L)
      (ht0 : h.t0 = img.runAddr) (ht1 : h.t1 = BitVec.ofNat (8 * b) img.size) :
      RelocState img L m0 (2 * img.words + 1) h m0
  | hang {h : Hart b} (hpc : h.pc = .startHang) : RelocState img L m0 0 h m0
  | lowerLoad {h : Hart b} {k : Nat} (hpc : h.pc = .copyToLowerLoad)
      (hregs : LowerRegs img L k h) (hk : k < img.words)
      (hlt : img.runAddr.toInt < L.toInt) (hspares : img.Spares L) :
      RelocState img L m0 (2 * (img.words - k)) h (copyUp b img.runAddr L k m0)
  | lowerStore {h : Hart b} {k : Nat} (hpc : h.pc = .copyToLowerStore)
      (hregs : LowerRegs img L k h) (hk : k < img.words)
      (hlt : img.runAddr.toInt < L.toInt) (hspares : img.Spares L)
      (ht3 : h.t3 = loadWord (copyUp b img.runAddr L k m0) (L + BitVec.ofNat (8 * b) (b * k))) :
      RelocState img L m0 (2 * (img.words - k) - 1) h (copyUp b img.runAddr L k m0)
  | upperLoad {h : Hart b} {k : Nat} (hpc : h.pc = .copyToUpperLoad)
      (hregs : UpperRegs img L (img.size - b * k) h) (hk : k < img.words)
      (hlt : L.toInt < img.runAddr.toInt) (hspares : img.Spares L) :
      RelocState img L m0 (2 * (img.words - k)) h (copyDown b img.size img.runAddr L k m0)
  | upperStore {h : Hart b} {k : Nat} (hpc : h.pc = .copyToUpperStore)
      (hregs : UpperRegs img L (img.size - b * (k + 1)) h) (hk : k < img.words)
      (hlt : L.toInt < img.runAddr.toInt) (hspares : img.Spares L)
      (ht2 : h.t2 = loadWord (copyDown b img.size img.runAddr L k m0)
        (L + BitVec.ofNat (8 * b) (img.size - b * (k + 1)))) :
      RelocState img L m0 (2 * (img.words - k) - 1) h (copyDown b img.size img.runAddr L k m0)
  | jump {h : Hart b} (hpc : h.pc = .relocateJump (img.addr img.runAddr .relocateDone))
      (hspares : img.Spares L) :
      RelocState img L m0 0 h (move img.runAddr L img.size m0)

theorem ne_of_toInt_lt {w : Nat} {x y : BitVec w} (h : x.toInt < y.toInt) : x ≠ y := by
  rintro rfl
  omega

section Sequential

variable {img : Image b} {L : BitVec (8 * b)} {m0 : Memory (8 * b)}

/-- With the run copy below, the ascending loop never reads a byte it wrote. -/
theorem Image.CopyOrdered.lower_safe (hord : img.CopyOrdered L) (hlt : img.runAddr.toInt < L.toInt)
    (n : Nat) (hn : n ≤ img.size) : (L - img.runAddr).toNat + n ≤ 2 ^ (8 * b) := by
  have hdist := toNat_sub_of_toInt_le L img.runAddr (by omega)
  have hwrap := hord.load_wrap (by omega)
  have hcast : ((2 ^ (8 * b) : Nat) : Int) = 2 ^ (8 * b) := by push_cast; rfl
  omega

theorem Image.CopyOrdered.upper_safe (hord : img.CopyOrdered L)
    (hlt : L.toInt < img.runAddr.toInt) :
    (img.runAddr - L).toNat + img.size ≤ 2 ^ (8 * b) := by
  have hdist := toNat_sub_of_toInt_le img.runAddr L (by omega)
  have hlow := BitVec.le_toInt L
  have htop := hord.run_top
  have hb := img.b_pos
  have hpow := two_pow_eq (w := 8 * b) (by omega)
  have hcast : ((2 ^ (8 * b - 1) : Nat) : Int) = 2 ^ (8 * b - 1) := by push_cast; rfl
  omega

/-- One step of the relocating hart stays in the listed states and uses up one
step of the bound. -/
theorem RelocState.step {n : Nat} {h : Hart b} {m : Memory (8 * b)}
    (hs : RelocState img L m0 n h m) (hord : L ≠ img.runAddr → img.CopyOrdered L)
    (hal : L ≠ img.runAddr → img.WordsBelow L)
    (hne : h.pc = .relocateLoadStart → L ≠ img.runAddr) (hload : img.LoadedAt L m0)
    (hrel : h.pc.relocating = true) :
    ∃ n' h' m', Hart.step img (h, m) = some (h', m') ∧ RelocState img L m0 n' h' m' ∧
      n' < n := by
  cases hs with
  | entry hpc hbase =>
      refine ⟨_, _, _, ?_, .sized (h := { h with t0 := img.runAddr, pc := .relocateSize })
        rfl hbase rfl, by omega⟩
      simp [Hart.step, Hart.action, hpc, Action.exec, Hart.la, hbase, hload.run_addr]
  | sized hpc hbase ht0 =>
      refine ⟨_, _, _, ?_, .placed
        (h := { h with t1 := BitVec.ofNat (8 * b) img.size, pc := .relocateLoadStart })
        rfl hbase ht0 rfl, by omega⟩
      simp [Hart.step, Hart.action, hpc, Action.exec, Hart.la, hbase, hload.image_size]
  | placed hpc hbase ht0 ht1 =>
      have hstep : Hart.step img (h, m0) =
          some (Hart.relocateBranch img { h with t2 := L }, m0) := by
        simp [Hart.step, Hart.action, hpc, Action.exec, Hart.la, hbase, hload.load_start]
      have hwords := img.words_pos
      have hne := hne hpc
      rcases relocateBranch_cases img L { h with t2 := L } (hord hne) (hal hne) hne hbase ht0 ht1
        rfl with
        ⟨hhang, _⟩ | ⟨hpc', hregs, hlt, hspares⟩ | ⟨hpc', hregs, hlt, hspares⟩
      · exact ⟨_, _, _, hstep, .hang hhang, by omega⟩
      · exact ⟨_, _, _, hstep, .lowerLoad hpc' hregs hwords hlt hspares, by omega⟩
      · exact ⟨_, _, _, hstep, .upperLoad (k := 0) hpc' hregs hwords hlt hspares, by omega⟩
  | hang hpc => simp [hpc, Pc.relocating] at hrel
  | @lowerLoad _ k hpc hregs hk hlt hspares =>
      refine ⟨_, _, _, ?_, .lowerStore (h := { h with
          t3 := loadWord (copyUp b img.runAddr L k m0) (L + BitVec.ofNat (8 * b) (b * k))
          pc := .copyToLowerStore })
        rfl ⟨hregs.base, hregs.t0, hregs.t1, hregs.t2, hregs.t4⟩ hk hlt hspares rfl, by omega⟩
      simp [Hart.step, hregs.load hpc, Action.exec]
  | @lowerStore _ k hpc hregs hk hlt hspares ht3 =>
      have hord := hord (ne_of_toInt_lt hlt).symm
      obtain ⟨next, haction, hnext⟩ :=
        hregs.store (hord.lower_top (Int.le_of_lt hlt)) hpc (img.mul_succ_le hk)
      have hstep : Hart.step img (h, copyUp b img.runAddr L k m0) =
          some (next, copyUp b img.runAddr L (k + 1) m0) := by
        simp only [Hart.step, haction, Action.exec, ht3, storeWord_loadWord_eq_move, copyUp]
      rcases hnext with ⟨hlt', hpc', hregs'⟩ | ⟨heq, hpc', _⟩
      · have hk' : k + 1 < img.words := by
          rw [← img.mul_words] at hlt'
          exact Nat.lt_of_mul_lt_mul_left hlt'
        exact ⟨_, _, _, hstep, .lowerLoad hpc' hregs' hk' hlt hspares, by omega⟩
      · have hmove : copyUp b img.runAddr L (k + 1) m0 = move img.runAddr L img.size m0 := by
          rw [copyUp_eq_move _ _ _ _ _ (by rw [heq]; exact hord.lower_safe hlt _ le_rfl), heq]
        rw [hmove] at hstep
        exact ⟨_, _, _, hstep, .jump hpc' hspares, by omega⟩
  | @upperLoad _ k hpc hregs hk hlt hspares =>
      have hle := img.mul_succ_le hk
      have hsplit : img.size - b * k = img.size - b * (k + 1) + b := by
        rw [Nat.mul_succ] at hle ⊢
        omega
      rw [hsplit] at hregs
      obtain ⟨next, haction, hnext⟩ := hregs.load hpc
      obtain ⟨hpc', hregs', ht2⟩ := hnext (loadWord (copyDown b img.size img.runAddr L k m0)
        (L + BitVec.ofNat (8 * b) (img.size - b * (k + 1))))
      refine ⟨_, _, _, ?_, .upperStore hpc' hregs' hk hlt hspares ht2, by omega⟩
      simp [Hart.step, haction, Action.exec]
  | @upperStore _ k hpc hregs hk hlt hspares ht2 =>
      have hle := img.mul_succ_le hk
      have hord := hord (ne_of_toInt_lt hlt)
      have hrun := hord.run_top
      have hpos := img.b_pos
      have hword : b ≤ b * (k + 1) := Nat.le_mul_of_pos_right b (by omega)
      obtain ⟨next, haction, hnext⟩ := hregs.store (by omega) hpc
      have hstep : Hart.step img (h, copyDown b img.size img.runAddr L k m0) =
          some (next, copyDown b img.size img.runAddr L (k + 1) m0) := by
        simp only [Hart.step, haction, Action.exec, ht2, storeWord_loadWord_eq_move, copyDown]
      rcases hnext with ⟨hpos, hpc', hregs'⟩ | ⟨hzero, hpc', _⟩
      · have hk' : k + 1 < img.words := by
          apply Nat.lt_of_mul_lt_mul_left (a := b)
          rw [img.mul_words]
          omega
        exact ⟨_, _, _, hstep, .upperLoad hpc' hregs' hk' hlt hspares, by omega⟩
      · have hall : b * (k + 1) = img.size := by omega
        have hmove : copyDown b img.size img.runAddr L (k + 1) m0 =
            move img.runAddr L img.size m0 := by
          rw [copyDown_eq_move _ _ _ _ _ _ hle (hord.upper_safe hlt), hall]
          simp
        rw [hmove] at hstep
        exact ⟨_, _, _, hstep, .jump hpc' hspares, by omega⟩
  | jump hpc hspares => simp [hpc, Pc.relocating] at hrel

theorem copying_step {s t : Hart b × Memory (8 * b)} (hcopy : s.1.pc.copying = true)
    (hrel : s.1.pc.relocating = true) (hstep : Hart.step img s = some t) :
    t.1.pc.copying = true := by
  obtain ⟨h, m⟩ := s
  cases hpc : h.pc <;> simp only [hpc, Pc.copying, Pc.relocating, Bool.false_eq_true] at hcopy hrel
  case copyToLowerLoad =>
      simp only [Hart.step, Hart.action, hpc, Action.exec, Option.some.injEq] at hstep
      subst hstep
      rfl
  case copyToLowerStore =>
      simp only [Hart.step, Hart.action, hpc, Action.exec, Option.some.injEq] at hstep
      subst hstep
      simp only [Hart.copyToLowerNext]
      split <;> rfl
  case copyToUpperLoad =>
      simp only [Hart.step, Hart.action, hpc, Action.exec, Option.some.injEq] at hstep
      subst hstep
      rfl
  case copyToUpperStore =>
      simp only [Hart.step, Hart.action, hpc, Action.exec, Option.some.injEq] at hstep
      subst hstep
      simp only [Hart.copyToUpperNext]
      split <;> rfl

/-- At every point of the copy, memory is the start memory with a part of the
image moved: a number of whole words from one place on. -/
theorem RelocState.moved_part {n : Nat} {h : Hart b} {m : Memory (8 * b)}
    (hs : RelocState img L m0 n h m) (hord : L ≠ img.runAddr → img.CopyOrdered L) :
    ∃ i k, i % b = 0 ∧ k % b = 0 ∧ i + k ≤ img.size ∧
      m = move (img.runAddr + BitVec.ofNat (8 * b) i) (L + BitVec.ofNat (8 * b) i) k m0 := by
  have hsize : img.size % b = 0 := by
    rw [← img.mul_words]
    exact Nat.mul_mod_right b _
  have hnone : ∃ i k, i % b = 0 ∧ k % b = 0 ∧ i + k ≤ img.size ∧
      m0 = move (img.runAddr + BitVec.ofNat (8 * b) i) (L + BitVec.ofNat (8 * b) i) k m0 :=
    ⟨0, 0, Nat.zero_mod b, Nat.zero_mod b, Nat.zero_le _, (move_zero _ _ _).symm⟩
  have hlower (k : Nat) (hk : k < img.words) (hlt : img.runAddr.toInt < L.toInt) :
      ∃ i j, i % b = 0 ∧ j % b = 0 ∧ i + j ≤ img.size ∧
        copyUp b img.runAddr L k m0 =
          move (img.runAddr + BitVec.ofNat (8 * b) i) (L + BitVec.ofNat (8 * b) i) j m0 := by
    have hle := img.mul_succ_le hk
    rw [Nat.mul_succ] at hle
    refine ⟨0, b * k, Nat.zero_mod b, Nat.mul_mod_right b k, by omega, ?_⟩
    rw [copyUp_eq_move _ _ _ _ _ ((hord (ne_of_toInt_lt hlt).symm).lower_safe hlt _ (by omega))]
    simp
  have hupper (k : Nat) (hk : k < img.words) (hlt : L.toInt < img.runAddr.toInt) :
      ∃ i j, i % b = 0 ∧ j % b = 0 ∧ i + j ≤ img.size ∧
        copyDown b img.size img.runAddr L k m0 =
          move (img.runAddr + BitVec.ofNat (8 * b) i) (L + BitVec.ofNat (8 * b) i) j m0 := by
    have hle := img.mul_succ_le hk
    rw [Nat.mul_succ] at hle
    refine ⟨img.size - b * k, b * k, ?_, Nat.mul_mod_right b k, by omega, ?_⟩
    · rw [← img.mul_words, ← Nat.mul_sub]
      exact Nat.mul_mod_right b _
    · exact copyDown_eq_move _ _ _ _ _ _ (by omega) ((hord (ne_of_toInt_lt hlt)).upper_safe hlt)
  cases hs with
  | entry | sized | placed | hang => exact hnone
  | lowerLoad _ _ hk hlt _ => exact hlower _ hk hlt
  | lowerStore _ _ hk hlt _ _ => exact hlower _ hk hlt
  | upperLoad _ _ hk hlt _ => exact hupper _ hk hlt
  | upperStore _ _ hk hlt _ _ => exact hupper _ hk hlt
  | jump _ _ => exact ⟨0, img.size, Nat.zero_mod b, hsize, by omega, by simp⟩

/-- Up to the jump, relocation changes no byte outside the run copy. -/
theorem RelocState.frame {n : Nat} {h : Hart b} {m : Memory (8 * b)}
    (hs : RelocState img L m0 n h m) (hord : L ≠ img.runAddr → img.CopyOrdered L)
    (x : BitVec (8 * b))
    (hx : ¬ InRange img.runAddr img.size x) : m x = m0 x := by
  obtain ⟨i, k, _, _, hfit, rfl⟩ := hs.moved_part hord
  apply move_of_not_inRange
  intro hin
  exact hx (inRange_mono hfit (Nat.le_of_lt img.size_lt) hin)

theorem RelocState.spares {n : Nat} {h : Hart b} {m : Memory (8 * b)}
    (hs : RelocState img L m0 n h m) : m = m0 ∨ img.Spares L := by
  cases hs with
  | entry | sized | placed | hang => exact Or.inl rfl
  | lowerLoad _ _ _ _ hspares => exact Or.inr hspares
  | lowerStore _ _ _ _ hspares _ => exact Or.inr hspares
  | upperLoad _ _ _ _ hspares => exact Or.inr hspares
  | upperStore _ _ _ _ hspares _ => exact Or.inr hspares
  | jump _ hspares => exact Or.inr hspares

theorem RelocState.unchanged {n : Nat} {h : Hart b} {m : Memory (8 * b)}
    (hs : RelocState img L m0 n h m) (hcopy : h.pc.copying = false) : m = m0 := by
  cases hs with
  | entry | sized | placed | hang => rfl
  | lowerLoad hpc _ _ _ _ => simp [hpc, Pc.copying] at hcopy
  | lowerStore hpc _ _ _ _ _ => simp [hpc, Pc.copying] at hcopy
  | upperLoad hpc _ _ _ _ => simp [hpc, Pc.copying] at hcopy
  | upperStore hpc _ _ _ _ _ => simp [hpc, Pc.copying] at hcopy
  | jump hpc _ => simp [hpc, Pc.copying] at hcopy

end Sequential

end ZStage.Head
