import ZStage.Head.BssZero

/-!
Relocation and the sign boundary. `_relocate` and `_bss_zero` order addresses with
the signed branches `blt`, `bge` and `ble`, although addresses are unsigned: on the
32-bit build the order is the wrong one when memory reaches from one side of
`0x80000000` to the other. The main result lists the placements of the two copies
for which relocation is right nevertheless; for every other one some image is
copied wrongly or some bss is left uncleared.
-/

namespace ZStage.Head

open ZStage.Lib.ByteMemory Relation

variable {b : Nat}

/-- What is expected of a hart at `_relocate`: it hangs because of an overlap, and has
stored nothing; or it copies the image and then clears bss. -/
def Image.Relocates (img : Image b) (L : BitVec (8 * b)) (m0 : Memory (8 * b)) (h0 : Hart b) :
    Prop :=
  (∃ t, RelocReach img (h0, m0) t ∧ t.1.pc = .startHang ∧ img.Touches L ∧
    ∀ u, RelocReach img (h0, m0) u → u.2 = m0) ∨
  ∃ t v, RelocReach img (h0, m0) t ∧
    t.1.pc = .relocateJump (img.addr img.runAddr .relocateDone) ∧ img.Relocated L m0 t.2 ∧
    BssReach img t v ∧ v.1.pc = .stackTop ∧ img.BssCleared v.2

section Runs

variable {img : Image b} {L : BitVec (8 * b)} {m0 : Memory (8 * b)} {h0 : Hart b}

theorem final_unique {α : Type} {r : α → α → Prop} (hr : Relator.RightUnique r) {a c d : α}
    (hc : ReflTransGen r a c) (hd : ReflTransGen r a d) (hcend : ∀ x, ¬ r c x)
    (hdend : ∀ x, ¬ r d x) : c = d := by
  rcases ReflTransGen.total_of_right_unique hr hc hd with hcd | hdc
  · rcases hcd.cases_head with heq | ⟨x, hstep, _⟩
    · exact heq
    · exact absurd hstep (hcend x)
  · rcases hdc.cases_head with heq | ⟨x, hstep, _⟩
    · exact heq.symm
    · exact absurd hstep (hdend x)

theorem reloc_unique {s t u : Hart b × Memory (8 * b)} (ht : RelocReach img s t)
    (hu : RelocReach img s u) (htend : t.1.pc.relocating = false)
    (huend : u.1.pc.relocating = false) : t = u := by
  apply final_unique relocStep_unique ht hu
  · rintro x ⟨hrel, _⟩
    rw [htend] at hrel
    cases hrel
  · rintro x ⟨hrel, _⟩
    rw [huend] at hrel
    cases hrel

/-- Relocation has failed when it comes to the jump with a wrong image, or with one
whose bss is not cleared then. -/
theorem not_relocates {t : Hart b × Memory (8 * b)} (hreach : RelocReach img (h0, m0) t)
    (hjump : t.1.pc = .relocateJump (img.addr img.runAddr .relocateDone))
    (hbad : img.Relocated L m0 t.2 →
      ∃ v, BssReach img t v ∧ v.1.pc = .stackTop ∧ ¬ img.BssCleared v.2) :
    ¬ img.Relocates L m0 h0 := by
  have hend : t.1.pc.relocating = false := by rw [hjump]; rfl
  rintro (⟨u, hu, hhang, _⟩ | ⟨u, v, hu, hjump', hmoved, hbss, hpc, hzero⟩)
  · obtain rfl := reloc_unique hreach hu hend (by rw [hhang]; rfl)
    rw [hjump] at hhang
    cases hhang
  · obtain rfl := reloc_unique hreach hu hend (by rw [hjump']; rfl)
    obtain ⟨w, hbss', hpc', hnot⟩ := hbad hmoved
    have heq : v = w := by
      apply final_unique bssStep_unique hbss hbss'
      · exact fun x hstep => hstep.1 hpc
      · exact fun x hstep => hstep.1 hpc'
    rw [heq] at hzero
    exact hnot hzero

/-! ### Placements that the signed order suits -/

/-- For a placement that the copy and `_bss_zero` order rightly. -/
theorem Image.CopyOrdered.relocates (hord : img.CopyOrdered L) (hal : img.WordsBelow L)
    (hne : L ≠ img.runAddr) (hbss : img.runAddr.toInt + img.bssEnd < 2 ^ (8 * b - 1))
    (hload : img.LoadedAt L m0) (hbase : h0.base = L) (hpc : h0.pc = .relocate) :
    img.Relocates L m0 h0 := by
  rcases relocation_ends hord hal hne hload h0 hbase hpc with
    hhang | ⟨t, hreach, hjump, hmem, _⟩
  · exact Or.inl hhang
  · have hmoved : img.Relocated L m0 t.2 := by
      rw [hmem]
      exact img.relocated_move L m0
    obtain ⟨v, hbss', hpc', hzero⟩ := bss_cleared (L := L) hjump
      ((hmoved.loadWord_run .headerImageRunAddr rfl).trans hload.run_addr)
      ((hmoved.loadWord_run .loadStart rfl).trans hload.load_start) hbss
    exact Or.inr ⟨t, v, hreach, hjump, hmoved, hbss', hpc', hzero⟩

/-! ### The branches of `_relocate` from the order of the end points -/

section Branch

variable {h : Hart b}

/-- The ascending loop is entered past the guards when the signed order puts the end of
the run copy below the load copy. -/
theorem BranchRegs.lower (hr : BranchRegs img L h)
    (hshort : (img.runAddr + BitVec.ofNat (8 * b) img.size).toInt ≤ L.toInt) :
    (Hart.relocateCopyToLower img h).pc = .copyToLowerLoad ∧
      LowerRegs img L 0 (Hart.relocateCopyToLower img h) := by
  rcases hr.lower_cases with ⟨hlong, _⟩ | ⟨_, hpc, hregs⟩
  · omega
  · exact ⟨hpc, hregs⟩

/-- The descending loop is entered past the guards when the signed order puts the end of
the load copy below the run copy, or everything that is guarded. -/
theorem BranchRegs.upper (hr : BranchRegs img L h)
    (hpass : (L + BitVec.ofNat (8 * b) img.size).toInt ≤ img.runAddr.toInt ∨
      ∀ s ∈ Symbol.guarded, (img.addr L s).toInt < img.runAddr.toInt) :
    (Hart.relocateCopyToUpper img h).pc = .copyToUpperLoad ∧
      UpperRegs img L img.size (Hart.relocateCopyToUpper img h) := by
  rcases hr.upper_cases with ⟨hlong, hguard, _⟩ | ⟨_, hpc, hregs⟩
  · have hbelow := hpass.resolve_left (by omega)
    rcases hguard with ⟨s, hs, hbetween⟩ | hbegins
    · have hlt := hbelow s hs
      rw [brange_iff] at hbetween
      omega
    · have hlt := hbelow .relocateDone (by simp [Symbol.guarded])
      rw [brange_iff] at hbegins
      omega
  · exact ⟨hpc, hregs⟩

theorem BranchRegs.upper_hangs (hr : BranchRegs img L h)
    (hlow : img.runAddr.toInt ≤ (img.addr L .bootStatus).toInt)
    (hhigh : (img.addr L .bootStatus).toInt < (L + BitVec.ofNat (8 * b) img.size).toInt) :
    (Hart.relocateCopyToUpper img h).pc = .startHang := by
  have hguard : img.Guarded L img.runAddr (L + BitVec.ofNat (8 * b) img.size) img.runAddr :=
    Or.inl ⟨.bootStatus, by simp [Symbol.guarded], brange_iff _ _ _ |>.mpr ⟨hlow, hhigh⟩⟩
  rcases hr.upper_cases with ⟨_, _, hhang⟩ | ⟨hshort | hnot, _⟩
  · exact hhang
  · omega
  · exact absurd hguard hnot

end Branch

theorem relocates_of_hang (hlt : L.toInt < img.runAddr.toInt)
    (hlow : img.runAddr.toInt ≤ (img.addr L .bootStatus).toInt)
    (hhigh : (img.addr L .bootStatus).toInt < (L + BitVec.ofNat (8 * b) img.size).toInt)
    (htouch : img.Touches L) (hload : img.LoadedAt L m0) (hbase : h0.base = L)
    (hpc : h0.pc = .relocate) : img.Relocates L m0 h0 := by
  obtain ⟨h, hbase', ht0, ht1, ht2, hreach, hbefore⟩ := relocation_enters hload hbase hpc
  obtain ⟨h', hr, hbranch⟩ :=
    relocateBranch_split img L h (ne_of_toInt_lt hlt) hbase' ht0 ht1 ht2
  rw [if_pos hlt] at hbranch
  have hhang := hr.upper_hangs hlow hhigh
  rw [hbranch] at hreach hbefore
  refine Or.inl ⟨_, hreach, hhang, htouch, ?_⟩
  intro u hu
  rcases hbefore u hu with hsame | hafter
  · exact hsame
  · rcases hafter.cases_head with heq | ⟨v, ⟨hrel, _⟩, _⟩
    · rw [← heq]
    · rw [hhang] at hrel
      cases hrel

/-! ### Loops that stop early -/

/-- The ascending loop stops after one word when the signed order puts the second word
of the run copy behind its end. -/
theorem LowerRegs.stops {h : Hart b} (hr : LowerRegs img L 0 h) (hpc : h.pc = .copyToLowerLoad)
    (hcross : (img.runAddr + BitVec.ofNat (8 * b) img.size).toInt ≤
      (img.runAddr + BitVec.ofNat (8 * b) b).toInt) (m : Memory (8 * b)) :
    ∃ t, RelocReach img (h, m) t ∧
      t.1.pc = .relocateJump (img.addr img.runAddr .relocateDone) ∧
      t.2 = move img.runAddr L b m := by
  let h1 : Hart b := { h with t3 := loadWord m L, pc := .copyToLowerStore }
  have hr1 : LowerRegs img L 0 h1 := ⟨hr.base, hr.t0, hr.t1, hr.t2, hr.t4⟩
  have hstep1 : Hart.step img (h, m) = some (h1, m) := by
    simp [Hart.step, hr.load hpc, Action.exec, h1]
  obtain ⟨next, haction, hnext⟩ := hr1.store_branch rfl
  rw [Nat.zero_add, Nat.mul_one] at hnext
  obtain ⟨hjump, _⟩ := (hnext.resolve_left (fun hlt => absurd hlt.1 (by omega))).2
  have hstep2 : Hart.step img (h1, m) = some (next, move img.runAddr L b m) := by
    simp [Hart.step, haction, Action.exec, h1, storeWord_loadWord_eq_move]
  exact ⟨_, .head ⟨by simp [hpc, Pc.relocating], hstep1⟩
    (.single ⟨by simp [h1, Pc.relocating], hstep2⟩), hjump, rfl⟩

/-- The descending loop stops after one word when the signed order puts the last word of
the run copy in front of its start. -/
theorem UpperRegs.stops {h : Hart b} (hr : UpperRegs img L img.size h)
    (hpc : h.pc = .copyToUpperLoad)
    (hcross : (img.runAddr + BitVec.ofNat (8 * b) (img.size - b)).toInt ≤ img.runAddr.toInt)
    (m : Memory (8 * b)) :
    ∃ t, RelocReach img (h, m) t ∧
      t.1.pc = .relocateJump (img.addr img.runAddr .relocateDone) ∧
      t.2 = move (img.runAddr + BitVec.ofNat (8 * b) (img.size - b))
        (L + BitVec.ofNat (8 * b) (img.size - b)) b m := by
  have hword : b ≤ img.size := Nat.le_trans (Nat.le_add_left _ _) (img.word_le_size .stackTop rfl)
  have hsplit : img.size = img.size - b + b := by omega
  rw [hsplit] at hr
  obtain ⟨h1, haction1, hnext1⟩ := hr.load hpc
  obtain ⟨hpc1, hr1, ht2⟩ := hnext1 (loadWord m (L + BitVec.ofNat (8 * b) (img.size - b)))
  have hstep1 : Hart.step img (h, m) = some (h1 (loadWord m
      (L + BitVec.ofNat (8 * b) (img.size - b))), m) := by
    simp [Hart.step, haction1, Action.exec]
  obtain ⟨next, haction, hnext⟩ := hr1.store_branch hpc1
  obtain ⟨hjump, _⟩ := (hnext.resolve_left (fun hlt => absurd hlt.1 (by omega))).2
  have hstep2 : Hart.step img (h1 (loadWord m (L + BitVec.ofNat (8 * b) (img.size - b))), m) =
      some (next, move (img.runAddr + BitVec.ofNat (8 * b) (img.size - b))
        (L + BitVec.ofNat (8 * b) (img.size - b)) b m) := by
    simp [Hart.step, haction, Action.exec, ht2, storeWord_loadWord_eq_move]
  exact ⟨_, .head ⟨by simp [hpc, Pc.relocating], hstep1⟩
    (.single ⟨by simp [hpc1, Pc.relocating], hstep2⟩), hjump, rfl⟩

/-- Above the sign boundary the ascending loop copies word by word to the end, wherever
the load copy lies. -/
theorem LowerRegs.runs (hrun : img.runAddr.toInt + img.size < 2 ^ (8 * b - 1)) (n : Nat)
    (m : Memory (8 * b)) : ∀ (k : Nat) (h : Hart b), LowerRegs img L k h → h.pc = .copyToLowerLoad →
      k + (n + 1) = img.words →
      ∃ t, RelocReach img (h, copyUp b img.runAddr L k m) t ∧
        t.1.pc = .relocateJump (img.addr img.runAddr .relocateDone) ∧
        t.2 = copyUp b img.runAddr L img.words m := by
  -- one round of the loop
  have hround (k : Nat) (h : Hart b) (hr : LowerRegs img L k h) (hpc : h.pc = .copyToLowerLoad)
      (hk : k < img.words) : ∃ next,
      RelocReach img (h, copyUp b img.runAddr L k m) (next, copyUp b img.runAddr L (k + 1) m) ∧
        ((b * (k + 1) < img.size ∧ next.pc = .copyToLowerLoad ∧ LowerRegs img L (k + 1) next) ∨
          (b * (k + 1) = img.size ∧
            next.pc = .relocateJump (img.addr img.runAddr .relocateDone))) := by
    let h1 : Hart b := { h with
      t3 := loadWord (copyUp b img.runAddr L k m) (L + BitVec.ofNat (8 * b) (b * k))
      pc := .copyToLowerStore }
    have hr1 : LowerRegs img L k h1 := ⟨hr.base, hr.t0, hr.t1, hr.t2, hr.t4⟩
    have hstep1 : Hart.step img (h, copyUp b img.runAddr L k m) =
        some (h1, copyUp b img.runAddr L k m) := by
      simp [Hart.step, hr.load hpc, Action.exec, h1]
    obtain ⟨next, haction, hnext⟩ := hr1.store hrun rfl (img.mul_succ_le hk)
    have hstep2 : Hart.step img (h1, copyUp b img.runAddr L k m) =
        some (next, copyUp b img.runAddr L (k + 1) m) := by
      simp only [Hart.step, haction, Action.exec, h1, storeWord_loadWord_eq_move, copyUp]
    refine ⟨next, .head ⟨by simp [hpc, Pc.relocating], hstep1⟩
      (.single ⟨by simp [h1, Pc.relocating], hstep2⟩), ?_⟩
    exact hnext.imp id (fun hend => ⟨hend.1, hend.2.1⟩)
  have hwords := img.mul_words
  induction n with
  | zero =>
      intro k h hr hpc hk
      obtain ⟨next, hreach, hnext⟩ := hround k h hr hpc (by omega)
      rw [Nat.zero_add] at hk
      rw [hk, hwords] at hnext
      obtain ⟨_, hjump⟩ := hnext.resolve_left (fun hlt => absurd hlt.1 (lt_irrefl _))
      exact ⟨_, hreach, hjump, by rw [hk]⟩
  | succ n ih =>
      intro k h hr hpc hk
      obtain ⟨next, hreach, hnext⟩ := hround k h hr hpc (by omega)
      have hlt : b * (k + 1) < b * img.words :=
        Nat.mul_lt_mul_of_pos_left (by omega) img.b_pos
      obtain ⟨_, hpc', hr'⟩ := hnext.resolve_right (fun hend => by omega)
      obtain ⟨t, hreach', hjump, hmem⟩ := ih (k + 1) next hr' hpc' (by omega)
      exact ⟨t, hreach.trans hreach', hjump, hmem⟩

/-- A word that the ascending loop has overwritten is copied on in place of the one that
the image has there. -/
theorem copyUp_overlap {d : Nat} (hd : img.runAddr = L + BitVec.ofNat (8 * b) d) (hpos : 0 < d)
    (hlt : d < img.size) (hmod : d % b = 0) :
    copyUp b img.runAddr L img.words m0 (img.runAddr + BitVec.ofNat (8 * b) d) = m0 L := by
  obtain ⟨q, rfl⟩ := Nat.dvd_of_mod_eq_zero hmod
  have hb := img.b_pos
  have hwords := img.mul_words
  have hfit := img.size_lt
  have hq : q < img.words := by
    rw [← hwords] at hlt
    exact Nat.lt_of_mul_lt_mul_left hlt
  have hq0 : 0 < q := Nat.pos_of_mul_pos_left hpos
  have hfirst : img.runAddr = img.runAddr + BitVec.ofNat (8 * b) (b * 0) := by simp
  calc copyUp b img.runAddr L img.words m0 (img.runAddr + BitVec.ofNat (8 * b) (b * q))
      = copyUp b img.runAddr L q m0 (L + BitVec.ofNat (8 * b) (b * q)) :=
        copyUp_at b _ _ _ hb hq (by omega)
    _ = copyUp b img.runAddr L q m0 (img.runAddr + BitVec.ofNat (8 * b) (b * 0)) := by
        rw [← hd, ← hfirst]
    _ = copyUp b img.runAddr L 0 m0 (L + BitVec.ofNat (8 * b) (b * 0)) :=
        copyUp_at b _ _ _ hb hq0 (by
          have hle := Nat.mul_le_mul_left b hq.le
          omega)
    _ = m0 L := by simp [copyUp]

/-! ### Images that show the failure -/

theorem Image.loadedAt_update (img : Image b) (L : BitVec (8 * b)) {i : Nat}
    (hi : i < 16 ∨ (img.bssStart ≤ i ∧ i < img.size)) (m : Memory (8 * b)) (c : UInt8)
    (hload : img.LoadedAt L m) :
    img.LoadedAt L (Function.update m (L + BitVec.ofNat (8 * b) i) c) := by
  have hfit := img.size_lt
  have htable := img.blobTable_le
  have hsize := img.blobTable_lt_size
  have hkept (s : Symbol) (hs : s.isWord = true) (hfirst : 16 ≤ img.offset s) :
      (loadWord (Function.update m (L + BitVec.ofNat (8 * b) i) c) (img.addr L s) :
        BitVec (8 * b)) = loadWord m (img.addr L s) := by
    have hword := img.word_le s hs
    apply loadWord_of_unchanged img.b_le
    intro x hx
    apply Function.update_of_ne
    rintro rfl
    exact disjoint_of_offsets L i 1 _ b (by omega) (by omega) (by omega) _
      (inRange_self _ Nat.one_pos) hx
  have hdata : 16 ≤ img.offset .loadStart := by
    have h1 := img.realStart_le
    have h2 := img.relocate_lt
    have h3 := img.relocateDone_lt
    have h4 := img.text_lt_data
    simp only [Image.offset]
    omega
  exact ⟨(hkept _ rfl le_rfl).trans hload.run_addr,
    (hkept _ rfl (by simp [Image.offset])).trans hload.image_size,
    (hkept _ rfl hdata).trans hload.load_start⟩

/-- An image whose byte at `i` differs from the byte at some other address. -/
theorem Image.exists_differing (img : Image b) (L y : BitVec (8 * b)) {i : Nat} (hi : i < 16)
    (hy : y ≠ L + BitVec.ofNat (8 * b) i) :
    ∃ m, img.LoadedAt L m ∧ m y ≠ m (L + BitVec.ofNat (8 * b) i) := by
  have hload := img.loadedAt_place L (fun _ => 0)
  obtain ⟨c, hc⟩ : ∃ c, c ≠ img.place L (fun _ => 0) y := by
    by_cases hzero : img.place L (fun _ => 0) y = 0
    · exact ⟨1, by rw [hzero]; decide⟩
    · exact ⟨0, fun heq => hzero heq.symm⟩
  refine ⟨_, img.loadedAt_update L (Or.inl hi) _ c hload, ?_⟩
  rw [Function.update_of_ne hy, Function.update_self]
  exact hc.symm

def Image.Miscopied (img : Image b) (L : BitVec (8 * b)) : Prop :=
  ∃ m, img.LoadedAt L m ∧ ∀ h0 : Hart b, h0.base = L → h0.pc = .relocate →
    ¬ img.Relocates L m h0

theorem miscopied_of_branch (hne : L ≠ img.runAddr) {m : Memory (8 * b)}
    (hload : img.LoadedAt L m)
    (hrun : ∀ h, BranchRegs img L h → ∃ t,
      RelocReach img (if L.toInt < img.runAddr.toInt then Hart.relocateCopyToUpper img h
        else Hart.relocateCopyToLower img h, m) t ∧
        t.1.pc = .relocateJump (img.addr img.runAddr .relocateDone) ∧
        ¬ img.Relocated L m t.2) : img.Miscopied L := by
  refine ⟨m, hload, ?_⟩
  intro h0 hbase hpc
  obtain ⟨h, hbase', ht0, ht1, ht2, hreach, _⟩ := relocation_enters hload hbase hpc
  obtain ⟨h', hr, hbranch⟩ := relocateBranch_split img L h hne hbase' ht0 ht1 ht2
  obtain ⟨t, hreach', hjump, hbad⟩ := hrun h' hr
  rw [hbranch] at hreach
  exact not_relocates (hreach.trans hreach') hjump (fun hmoved => absurd hmoved hbad)

/-- One word is copied, and the second word of the run copy is left as it was. -/
theorem miscopied_of_lower_stop (hne : L ≠ img.runAddr) (hle : img.runAddr.toInt ≤ L.toInt)
    (hshort : (img.runAddr + BitVec.ofNat (8 * b) img.size).toInt ≤ L.toInt)
    (hcross : (img.runAddr + BitVec.ofNat (8 * b) img.size).toInt ≤
      (img.runAddr + BitVec.ofNat (8 * b) b).toInt) : img.Miscopied L := by
  have hb : b < 16 := by
    rcases img.xlen with hb | hb <;> omega
  have hfit := img.size_lt
  have hword := img.word_le_size .spinAddr rfl
  simp only [Image.offset] at hword
  have hy : img.runAddr + BitVec.ofNat (8 * b) b ≠ L + BitVec.ofNat (8 * b) b := by
    intro heq
    exact hne (add_right_cancel heq).symm
  obtain ⟨m, hload, hdiff⟩ := img.exists_differing L _ hb hy
  apply miscopied_of_branch hne hload
  intro h hr
  rw [if_neg (by omega)]
  obtain ⟨hpc, hregs⟩ := hr.lower hshort
  obtain ⟨t, hreach, hjump, hmem⟩ := hregs.stops hpc hcross m
  refine ⟨t, hreach, hjump, ?_⟩
  intro hmoved
  have hcopied := hmoved.copied b (by omega)
  have hout : ¬ InRange img.runAddr b (img.runAddr + BitVec.ofNat (8 * b) b) := by
    have hsub : img.runAddr + BitVec.ofNat (8 * b) b - img.runAddr = BitVec.ofNat (8 * b) b := by
      ring
    unfold InRange
    rw [hsub, BitVec.toNat_ofNat, Nat.mod_eq_of_lt (by omega)]
    omega
  rw [hmem, move_of_not_inRange _ _ _ _ _ hout] at hcopied
  exact absurd hcopied hdiff

theorem miscopied_of_upper_stop (hlt : L.toInt < img.runAddr.toInt)
    (hpass : (L + BitVec.ofNat (8 * b) img.size).toInt ≤ img.runAddr.toInt ∨
      ∀ s ∈ Symbol.guarded, (img.addr L s).toInt < img.runAddr.toInt)
    (hcross : (img.runAddr + BitVec.ofNat (8 * b) (img.size - b)).toInt ≤ img.runAddr.toInt) :
    img.Miscopied L := by
  have hne := ne_of_toInt_lt hlt
  have hfit := img.size_lt
  have hword := img.word_le_size .spinAddr rfl
  have hpos := img.b_pos
  simp only [Image.offset] at hword
  have hy : img.runAddr ≠ L + BitVec.ofNat (8 * b) 0 := by simpa using hne.symm
  obtain ⟨m, hload, hdiff⟩ := img.exists_differing L _ (by decide) hy
  apply miscopied_of_branch hne hload
  intro h hr
  rw [if_pos hlt]
  obtain ⟨hpc, hregs⟩ := hr.upper hpass
  obtain ⟨t, hreach, hjump, hmem⟩ := hregs.stops hpc hcross m
  refine ⟨t, hreach, hjump, ?_⟩
  intro hmoved
  have hcopied := hmoved.copied 0 img.size_pos
  have hzero : img.runAddr + BitVec.ofNat (8 * b) 0 = img.runAddr := by simp
  have hout : ¬ InRange (img.runAddr + BitVec.ofNat (8 * b) (img.size - b)) b img.runAddr := by
    have hoff := offset_add img.runAddr img.runAddr (img.size - b) (by omega)
    have hself : (img.runAddr - img.runAddr).toNat = 0 := by simp
    rw [hself, if_neg (by omega)] at hoff
    unfold InRange
    rw [hoff]
    omega
  rw [hmem, hzero, move_of_not_inRange _ _ _ _ _ hout] at hcopied
  exact absurd hcopied hdiff

/-- The ascending loop runs over a load copy that overlaps the run copy from below. -/
theorem miscopied_of_overlap (hne : L ≠ img.runAddr)
    (hrun : img.runAddr.toInt + img.size < 2 ^ (8 * b - 1)) (hle : img.runAddr.toInt ≤ L.toInt)
    (hshort : (img.runAddr + BitVec.ofNat (8 * b) img.size).toInt ≤ L.toInt) {d : Nat}
    (hd : img.runAddr = L + BitVec.ofNat (8 * b) d) (hpos : 0 < d) (hlt : d < img.size)
    (hmod : d % b = 0) : img.Miscopied L := by
  have hy : img.runAddr ≠ L + BitVec.ofNat (8 * b) 0 := by simpa using hne.symm
  have hwords := img.words_pos
  obtain ⟨m, hload, hdiff⟩ := img.exists_differing L _ (by decide) hy
  apply miscopied_of_branch hne hload
  intro h hr
  rw [if_neg (by omega)]
  obtain ⟨hpc, hregs⟩ := hr.lower hshort
  obtain ⟨t, hreach, hjump, hmem⟩ :=
    LowerRegs.runs hrun (img.words - 1) m 0 _ hregs hpc (by omega)
  refine ⟨t, hreach, hjump, ?_⟩
  intro hmoved
  have hcopied := hmoved.copied d hlt
  have hzero : L + BitVec.ofNat (8 * b) 0 = L := by simp
  rw [hmem, copyUp_overlap hd hpos hlt hmod, ← hd] at hcopied
  rw [hzero] at hdiff
  exact absurd hcopied.symm hdiff

/-- The image is copied, and all of bss but its first word is left as it was. -/
theorem miscopied_of_bss_stop (hord : img.CopyOrdered L) (hal : img.WordsBelow L)
    (hne : L ≠ img.runAddr) (hclear : ¬ img.Touches L)
    (hlong : img.bssStart + b < img.bssEnd)
    (hcross : (img.runAddr + BitVec.ofNat (8 * b) img.bssEnd).toInt ≤
      (img.runAddr + BitVec.ofNat (8 * b) (img.bssStart + b)).toInt) : img.Miscopied L := by
  have hbss := img.bss_le
  have hload := img.loadedAt_update L (i := img.bssStart + b) (Or.inr ⟨by omega, by omega⟩) _ 1
    (img.loadedAt_place L (fun _ => 0))
  refine ⟨_, hload, ?_⟩
  intro h0 hbase hpc
  rcases relocation_ends hord hal hne hload h0 hbase hpc with
    ⟨_, _, _, htouch, _⟩ | ⟨t, hreach, hjump, hmem, hspares⟩
  · exact absurd htouch hclear
  · apply not_relocates hreach hjump
    intro hmoved
    obtain ⟨v, hbss', hpc', hkept⟩ := bss_stops (L := L) hjump
      ((hmoved.loadWord_run .headerImageRunAddr rfl).trans hload.run_addr)
      ((hmoved.loadWord_run .loadStart rfl).trans hload.load_start) hcross hspares.boot_status
    refine ⟨v, hbss', hpc', ?_⟩
    intro hzero
    have hbyte := hzero (img.bssStart + b) (by omega) hlong
    rw [hkept _ le_rfl hlong, hmoved.copied _ (by omega), Function.update_self] at hbyte
    exact absurd hbyte (by decide)

end Runs

/-! ### The 32-bit build -/

/-- The placements of the 32-bit build that relocation gets right. Either the run copy
lies on one side of `0x80000000` and no load copy reaches up to it from the other side;
or the run copy reaches across, and the load copy below it reaches with its boot status
into the run copy, so that the hart hangs; or the run copy ends right at the boundary,
with the load copy on one side of it and something behind bss. -/
def Image.SignSafe (img : Image 4) (L : BitVec (8 * 4)) : Prop :=
  ((img.runAddr.toNat + img.size < 2 ^ 31 ∨ 2 ^ 31 ≤ img.runAddr.toNat) ∧
    ¬ (L.toNat < 2 ^ 31 ∧ 2 ^ 31 ≤ img.runAddr.toNat ∧ img.runAddr.toNat < L.toNat + img.size)) ∨
  (img.runAddr.toNat < 2 ^ 31 ∧ 2 ^ 31 ≤ img.runAddr.toNat + img.size ∧
    L.toNat + img.size < 2 ^ 31 ∧ L.toNat < img.runAddr.toNat ∧
    img.runAddr.toNat ≤ L.toNat + img.offset .bootStatus) ∨
  (img.runAddr.toNat + img.size = 2 ^ 31 ∧ img.bssEnd < img.size ∧
    (L.toNat + img.size < 2 ^ 31 ∨ 2 ^ 31 ≤ L.toNat))

instance (img : Image 4) (L : BitVec (8 * 4)) : Decidable (img.SignSafe L) := by
  unfold Image.SignSafe
  infer_instance

section Narrow

variable {img : Image 4} {L : BitVec (8 * 4)} {m0 : Memory (8 * 4)} {h0 : Hart 4}

theorem toInt_narrow (x : BitVec (8 * 4)) :
    x.toInt = if x.toNat < 2 ^ 31 then (x.toNat : Int) else x.toNat - 2 ^ 32 := by
  have hx := BitVec.toInt_eq_toNat_cond x
  simp only [Nat.reduceMul, Nat.reducePow, Int.reducePow] at hx ⊢
  split at hx <;> split <;> omega

theorem toInt_add_narrow (x : BitVec (8 * 4)) (i : Nat) (h : x.toNat + i ≤ 2 ^ 32 - 1) :
    (x + BitVec.ofNat (8 * 4) i).toInt =
      if x.toNat + i < 2 ^ 31 then ((x.toNat + i : Nat) : Int)
      else (x.toNat + i : Nat) - 2 ^ 32 := by
  rw [toInt_narrow, toNat_add_ofNat x i (by
    simp only [Nat.reduceMul]
    omega)]

theorem inRange_narrow (a x : BitVec (8 * 4)) (n : Nat) (h : a.toNat + n ≤ 2 ^ 32) :
    InRange a n x ↔ a.toNat ≤ x.toNat ∧ x.toNat < a.toNat + n := by
  have hsub := toNat_sub_cases x a
  have hx := x.isLt
  simp only [Nat.reduceMul] at hsub hx
  unfold InRange
  split at hsub <;> omega

theorem toInt_addr_narrow (img : Image 4) (base : BitVec (8 * 4)) (s : Symbol)
    (hs : img.offset s ≤ img.size) (htop : base.toNat + img.size ≤ 2 ^ 32 - 1) :
    (img.addr base s).toInt = if base.toNat + img.offset s < 2 ^ 31 then
      ((base.toNat + img.offset s : Nat) : Int) else (base.toNat + img.offset s : Nat) - 2 ^ 32 :=
  toInt_add_narrow base _ (by omega)

/-- What is touched lies between the start of the load copy and the end of its boot
status. -/
theorem Image.Touches.narrow (htouch : img.Touches L)
    (hLtop : L.toNat + img.size ≤ 2 ^ 32 - 1) (hRtop : img.runAddr.toNat + img.size ≤ 2 ^ 32 - 1) :
    ∃ x : Nat, L.toNat ≤ x ∧ x < L.toNat + img.offset .bootStatus + 4 ∧
      img.runAddr.toNat ≤ x ∧ x < img.runAddr.toNat + img.size := by
  have hword := img.word_le_size .bootStatus rfl
  have h1 := img.relocate_lt
  have h2 := img.relocateDone_lt
  have h3 := img.text_lt_data
  simp only [Image.offset] at hword ⊢
  have hpart (s : Symbol) (n : Nat) (x : BitVec (8 * 4)) (hn : img.offset s + n ≤ img.size)
      (hx : InRange (img.addr L s) n x) :
      L.toNat + img.offset s ≤ x.toNat ∧ x.toNat < L.toNat + img.offset s + n := by
    have haddr : (img.addr L s).toNat = L.toNat + img.offset s :=
      toNat_add_ofNat _ _ (by omega)
    rw [inRange_narrow _ _ _ (by omega), haddr] at hx
    exact hx
  obtain ⟨x, hin, hx⟩ := htouch
  rw [inRange_narrow _ _ _ (by omega)] at hin
  refine ⟨x.toNat, ?_⟩
  rcases hx with hx | hx | hx
  · have hx := hpart .relocate _ x (by simp only [Image.offset]; omega) hx
    simp only [Image.offset] at hx
    omega
  · have hx := hpart .relocateLottery _ x (by simp only [Image.offset]; omega) hx
    simp only [Image.offset] at hx
    omega
  · have hx := hpart .bootStatus _ x (by simp only [Image.offset]; omega) hx
    simp only [Image.offset] at hx
    omega

/-! ### The placements that are right -/

theorem Image.ordered_narrow (hLtop : L.toNat + img.size ≤ 2 ^ 32 - 1)
    (hside : img.runAddr.toNat + img.size < 2 ^ 31 ∨ 2 ^ 31 ≤ img.runAddr.toNat)
    (hRtop : img.runAddr.toNat + img.size ≤ 2 ^ 32 - 1)
    (hcross : ¬ (L.toNat < 2 ^ 31 ∧ 2 ^ 31 ≤ img.runAddr.toNat ∧
      img.runAddr.toNat < L.toNat + img.size)) : img.Ordered L := by
  have hL := toInt_narrow L
  have hR := toInt_narrow img.runAddr
  constructor
  · simp only [Nat.reduceMul, Nat.add_one_sub_one]
    split at hR <;> omega
  · intro hle
    simp only [Nat.reduceMul]
    split at hL <;> split at hR <;> omega

theorem Image.copyOrdered_narrow (hend : img.runAddr.toNat + img.size = 2 ^ 31)
    (hside : L.toNat + img.size < 2 ^ 31 ∨ 2 ^ 31 ≤ L.toNat) : img.CopyOrdered L := by
  have hL := toInt_narrow L
  have hR := toInt_narrow img.runAddr
  have hlt := L.isLt
  simp only [Nat.reduceMul] at hlt
  have hpos := img.size_pos
  rw [if_pos (by omega)] at hR
  have habove : L.toInt < img.runAddr.toInt := by
    split at hL <;> omega
  constructor
  · simp only [Nat.reduceMul, Nat.add_one_sub_one]
    omega
  · intro hle
    omega
  · intro hle
    omega

theorem Image.SignSafe.relocates (hsafe : img.SignSafe L) (hne : L ≠ img.runAddr)
    (hal : img.Aligned L) (hLtop : L.toNat + img.size ≤ 2 ^ 32 - 1)
    (hRtop : img.runAddr.toNat + img.size ≤ 2 ^ 32 - 1) (hload : img.LoadedAt L m0)
    (hbase : h0.base = L) (hpc : h0.pc = .relocate) : img.Relocates L m0 h0 := by
  have hL := toInt_narrow L
  have hR := toInt_narrow img.runAddr
  have hbss := img.bss_le
  rcases hsafe with ⟨hside, hcross⟩ | ⟨hlow, hhigh, hload_low, hlt, htouch⟩ | ⟨hend, hlast, hside⟩
  · have hord := Image.ordered_narrow hLtop hside hRtop hcross
    apply hord.copyOrdered.relocates hal.wordsBelow hne ?_ hload hbase hpc
    have hrun := hord.run_top
    omega
  · have hword := img.word_le_size .bootStatus rfl
    have hstatus := toInt_addr_narrow img L .bootStatus (by omega) hLtop
    have htop := toInt_add_narrow L img.size hLtop
    have hin : InRange img.runAddr img.size (img.addr L .bootStatus) := by
      rw [inRange_narrow _ _ _ (by omega), Image.addr, toNat_add_ofNat _ _ (by omega)]
      omega
    rw [if_pos (by omega)] at hL hR hstatus htop
    apply relocates_of_hang ?_ ?_ ?_ (Image.touches_word (Or.inr rfl) hin) hload hbase hpc
    · omega
    · omega
    · omega
  · have hord := Image.copyOrdered_narrow hend hside
    apply hord.relocates hal.wordsBelow hne ?_ hload hbase hpc
    rw [if_pos (by omega)] at hR
    simp only [Nat.reduceMul, Nat.add_one_sub_one]
    omega

/-! ### The placements that are not -/

theorem aligned_offset {d : Nat} (hal : img.Aligned L)
    (hd : img.runAddr.toNat = L.toNat + d) : d % 4 = 0 := by
  have h1 := hal.load_aligned
  have h2 := hal.run_aligned
  omega

/-- The load copy reaches over the boundary into the run copy. -/
theorem miscopied_of_load_across (hal : img.Aligned L)
    (hRtop : img.runAddr.toNat + img.size ≤ 2 ^ 32 - 1) (hL : L.toNat < 2 ^ 31)
    (hR : 2 ^ 31 ≤ img.runAddr.toNat) (hreach : img.runAddr.toNat < L.toNat + img.size) :
    img.Miscopied L := by
  have hLi := toInt_narrow L
  have hRi := toInt_narrow img.runAddr
  have htop := toInt_add_narrow img.runAddr img.size hRtop
  rw [if_pos hL] at hLi
  rw [if_neg (by omega)] at hRi htop
  obtain ⟨d, hd⟩ : ∃ d, img.runAddr.toNat = L.toNat + d := ⟨_, (Nat.add_sub_of_le (by omega)).symm⟩
  have haddr : img.runAddr = L + BitVec.ofNat (8 * 4) d := by
    apply BitVec.eq_of_toNat_eq
    rw [hd, toNat_add_ofNat _ _ (by
      simp only [Nat.reduceMul]
      omega)]
  have hne : L ≠ img.runAddr := by
    rintro heq
    rw [heq] at hL
    omega
  apply miscopied_of_overlap hne ?_ ?_ ?_ haddr (by omega) (by omega) (aligned_offset hal hd)
  · simp only [Nat.reduceMul, Nat.add_one_sub_one]
    omega
  · omega
  · omega

/-- The run copy reaches across the boundary, and the load copy begins in between. -/
theorem miscopied_of_run_below (hal : img.Aligned L)
    (hRtop : img.runAddr.toNat + img.size ≤ 2 ^ 32 - 1) (hlt : img.runAddr.toNat < L.toNat)
    (hL : L.toNat < 2 ^ 31) (hreach : 2 ^ 31 ≤ img.runAddr.toNat + img.size) :
    img.Miscopied L := by
  have hLi := toInt_narrow L
  have hRi := toInt_narrow img.runAddr
  have htop := toInt_add_narrow img.runAddr img.size hRtop
  have hword := img.word_le_size .spinAddr rfl
  have hsecond := toInt_add_narrow img.runAddr 4 (by omega)
  have halL := hal.load_aligned
  have halR := hal.run_aligned
  rw [if_pos (by omega)] at hLi hRi hsecond
  rw [if_neg (by omega)] at htop
  have hne : L ≠ img.runAddr := by
    rintro heq
    rw [heq] at hlt
    omega
  apply miscopied_of_lower_stop hne
  · omega
  · omega
  · omega

/-- The run copy reaches across the boundary, and the load copy lies below it or wholly
behind the boundary. -/
theorem miscopied_of_run_across (hal : img.Aligned L)
    (hLtop : L.toNat + img.size ≤ 2 ^ 32 - 1)
    (hRtop : img.runAddr.toNat + img.size ≤ 2 ^ 32 - 1) (hR : img.runAddr.toNat < 2 ^ 31)
    (hreach : 2 ^ 31 < img.runAddr.toNat + img.size)
    (hside : L.toNat < img.runAddr.toNat ∨ 2 ^ 31 ≤ L.toNat)
    (hclear : ¬ (L.toNat + img.size < 2 ^ 31 ∧ L.toNat < img.runAddr.toNat ∧
      img.runAddr.toNat ≤ L.toNat + img.offset .bootStatus)) : img.Miscopied L := by
  have hLi := toInt_narrow L
  have hRi := toInt_narrow img.runAddr
  have htop := toInt_add_narrow L img.size hLtop
  have hword := img.word_le_size .bootStatus rfl
  have hsize := img.size_aligned
  have hal' := hal.run_aligned
  have hlast := toInt_add_narrow img.runAddr (img.size - 4) (by omega)
  rw [if_pos hR] at hRi
  rw [if_neg (by omega)] at hlast
  apply miscopied_of_upper_stop
  · split at hLi <;> omega
  · by_cases hover : 2 ^ 31 ≤ L.toNat + img.size
    · left
      rw [if_neg (by omega)] at htop
      omega
    · right
      intro s hs
      have h1 := img.relocate_lt
      have h2 := img.relocateDone_lt
      have h3 := img.text_lt_data
      have hoff : img.offset s ≤ img.offset .bootStatus := by
        simp only [Symbol.guarded, List.mem_cons, List.not_mem_nil, or_false] at hs
        rcases hs with rfl | rfl | rfl | rfl <;> simp only [Image.offset] <;> omega
      have haddr := toInt_addr_narrow img L s (by omega) hLtop
      rw [if_pos (by omega)] at haddr
      omega
  · omega

theorem miscopied_of_bss_across (hal : img.Aligned L) (hne : L ≠ img.runAddr)
    (hend : img.runAddr.toNat + img.size = 2 ^ 31) (hlast : img.bssEnd = img.size)
    (hside : L.toNat + img.size < 2 ^ 31 ∨ 2 ^ 31 ≤ L.toNat)
    (hLtop : L.toNat + img.size ≤ 2 ^ 32 - 1)
    (hclear : ¬ (L.toNat + img.size < 2 ^ 31 ∧ L.toNat < img.runAddr.toNat ∧
      img.runAddr.toNat ≤ L.toNat + img.offset .bootStatus)) : img.Miscopied L := by
  have hword := img.word_le_size .bootStatus rfl
  have hoff := img.word_aligned .bootStatus rfl
  have halL := hal.load_aligned
  have halR := hal.run_aligned
  have hbss := img.bss_lt
  have hstart := img.bssStart_aligned
  have hend' := img.bssEnd_aligned
  have htouch : ¬ img.Touches L := by
    intro htouch
    obtain ⟨x, hx, hx', hin, hin'⟩ := htouch.narrow hLtop (by omega)
    omega
  apply miscopied_of_bss_stop (Image.copyOrdered_narrow hend hside) hal.wordsBelow hne htouch
  · omega
  · rw [hlast, toInt_add_narrow _ _ (by omega), toInt_add_narrow _ _ (by omega),
      if_neg (by omega)]
    split <;> omega

theorem Image.Miscopied.not_all (hmis : img.Miscopied L) :
    ¬ ∀ (m0 : Memory (8 * 4)) (h0 : Hart 4), img.LoadedAt L m0 → h0.base = L →
      h0.pc = .relocate → img.Relocates L m0 h0 := by
  obtain ⟨m, hload, hfails⟩ := hmis
  intro hall
  apply hfails ⟨L, .relocate, 0, 0, 0, 0, 0, 0, 0, 0, 0, 0, 0⟩ rfl rfl
  exact hall m _ hload rfl rfl

theorem Image.miscopied_of_not_signSafe (hne : L ≠ img.runAddr) (hal : img.Aligned L)
    (hLtop : L.toNat + img.size ≤ 2 ^ 32 - 1)
    (hRtop : img.runAddr.toNat + img.size ≤ 2 ^ 32 - 1) (hnot : ¬ img.SignSafe L) :
    img.Miscopied L := by
  have hne' : L.toNat ≠ img.runAddr.toNat := fun heq => hne (BitVec.eq_of_toNat_eq heq)
  have hbss := img.bss_le
  unfold Image.SignSafe at hnot
  by_cases hside : img.runAddr.toNat + img.size < 2 ^ 31 ∨ 2 ^ 31 ≤ img.runAddr.toNat
  · apply miscopied_of_load_across hal hRtop <;> omega
  by_cases hbelow : img.runAddr.toNat < L.toNat ∧ L.toNat < 2 ^ 31
  · exact miscopied_of_run_below hal hRtop hbelow.1 hbelow.2 (by omega)
  by_cases hend : img.runAddr.toNat + img.size = 2 ^ 31
  · apply miscopied_of_bss_across hal hne hend <;> omega
  · apply miscopied_of_run_across hal hLtop hRtop <;> omega

/-- On the 32-bit build, `_relocate` and `_bss_zero` do what is expected of them for every
image at such a place, if and only if the place is one of those listed. -/
theorem relocates_iff_signSafe (img : Image 4) (L : BitVec (8 * 4)) (hne : L ≠ img.runAddr)
    (hal : img.Aligned L) (hLtop : L.toNat + img.size ≤ 2 ^ 32 - 1)
    (hRtop : img.runAddr.toNat + img.size ≤ 2 ^ 32 - 1) :
    (∀ (m0 : Memory (8 * 4)) (h0 : Hart 4), img.LoadedAt L m0 → h0.base = L →
      h0.pc = .relocate → img.Relocates L m0 h0) ↔ img.SignSafe L := by
  constructor
  · intro hall
    by_contra hnot
    exact (img.miscopied_of_not_signSafe hne hal hLtop hRtop hnot).not_all hall
  · intro hsafe m0 h0 hload hbase hpc
    exact hsafe.relocates hne hal hLtop hRtop hload hbase hpc

/-- An image that is linked at the usual start of memory and loaded above. -/
theorem relocates_iff_signSafe_sample :
    (Image.sample 4 (Or.inl rfl) 0x80000000).Relocates 0x84000000
      ((Image.sample 4 (Or.inl rfl) 0x80000000).place 0x84000000 (fun _ => 0))
      ⟨0x84000000, .relocate, 0, 0, 0, 0, 0, 0, 0, 0, 0, 0, 0⟩ :=
  (relocates_iff_signSafe (Image.sample 4 (Or.inl rfl) 0x80000000) 0x84000000 (by decide)
    ⟨by decide, by decide⟩ (by decide) (by decide)).mpr (by decide) _ _
    (Image.loadedAt_place _ _ _) rfl rfl

/-- An image that is linked across the boundary and loaded above it: the descending loop
copies its last word and stops. -/
theorem relocation_across_boundary :
    ¬ ∀ (img : Image 4) (L : BitVec (8 * 4)), L ≠ img.runAddr → img.Aligned L →
      L.toNat + img.size ≤ 2 ^ 32 - 1 → img.runAddr.toNat + img.size ≤ 2 ^ 32 - 1 →
      ∀ (m0 : Memory (8 * 4)) (h0 : Hart 4), img.LoadedAt L m0 → h0.base = L →
        h0.pc = .relocate → img.Relocates L m0 h0 := by
  intro hall
  have hal : (Image.sample 4 (Or.inl rfl) 0x7FFFE000).Aligned 0x90000000 :=
    ⟨by decide, by decide⟩
  apply (miscopied_of_run_across hal (by decide) (by decide) (by decide) (by decide)
    (Or.inr (by decide)) (by decide)).not_all
  exact hall _ 0x90000000 (by decide) hal (by decide) (by decide)

end Narrow

end ZStage.Head
