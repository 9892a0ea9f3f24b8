import Mathlib.Logic.Relation
import ZStage.Head.CopyLoop

/-!
The self-relocation as a whole run of one hart: it comes to an end, it moves the
image without overwriting what it still needs, and the boot status it stores
afterwards is the one of the load copy.
-/

namespace ZStage.Head

open ZStage.Lib.ByteMemory Relation

variable {b : Nat}

/-- A step of the relocating hart, up to the jump into the run copy. -/
def RelocStep (img : Image b) (s t : Hart b × Memory (8 * b)) : Prop :=
  s.1.pc.relocating = true ∧ Hart.step img s = some t

def RelocReach (img : Image b) : Hart b × Memory (8 * b) → Hart b × Memory (8 * b) → Prop :=
  ReflTransGen (RelocStep img)

def Runs (img : Image b) : Hart b × Memory (8 * b) → Hart b × Memory (8 * b) → Prop :=
  ReflTransGen (fun s t => Hart.step img s = some t)

/-- `[R, R + S)` holds what `[L, L + S)` held in `m0`; every other byte is as in
`m0`. -/
structure Image.Relocated (img : Image b) (L : BitVec (8 * b)) (m0 m : Memory (8 * b)) : Prop where
  copied : ∀ i, i < img.size →
    m (img.runAddr + BitVec.ofNat (8 * b) i) = m0 (L + BitVec.ofNat (8 * b) i)
  frame : ∀ x, ¬ InRange img.runAddr img.size x → m x = m0 x

/-- The load copies of the code `[_relocate, _relocate_done)`, of the lottery and
of the boot status hold what they held in `m0`. -/
structure Image.Protected (img : Image b) (L : BitVec (8 * b)) (m0 m : Memory (8 * b)) : Prop where
  code : ∀ x, InRange (img.addr L .relocate) (img.relocateDone - img.relocate) x → m x = m0 x
  lottery : ∀ x, InRange (img.addr L .relocateLottery) b x → m x = m0 x
  boot_status : ∀ x, InRange (img.addr L .bootStatus) b x → m x = m0 x

section Runs

variable {img : Image b} {L : BitVec (8 * b)} {m0 : Memory (8 * b)}

theorem relocStep_unique : Relator.RightUnique (RelocStep img) := by
  intro s t u hst hsu
  exact Option.some.inj (hst.2.symm.trans hsu.2)

theorem RelocState.reach (hord : img.CopyOrdered L) (hal : img.WordsBelow L) (hne : L ≠ img.runAddr)
    (hload : img.LoadedAt L m0) {n : Nat} {s t : Hart b × Memory (8 * b)}
    (hs : RelocState img L m0 n s.1 s.2) (hreach : RelocReach img s t) :
    ∃ n', RelocState img L m0 n' t.1 t.2 := by
  induction hreach with
  | refl => exact ⟨n, hs⟩
  | tail _ hstep ih =>
      obtain ⟨k, hk⟩ := ih
      obtain ⟨k', h', m', hrun, hnext, _⟩ :=
        hk.step (fun _ => hord) (fun _ => hal) (fun _ => hne) hload hstep.1
      have heq := Option.some.inj (hrun.symm.trans hstep.2)
      exact ⟨k', by rw [← heq]; exact hnext⟩

theorem RelocState.finishes (hord : img.CopyOrdered L) (hal : img.WordsBelow L)
    (hne : L ≠ img.runAddr) (hload : img.LoadedAt L m0) (n : Nat) : ∀ s : Hart b × Memory (8 * b),
    RelocState img L m0 n s.1 s.2 →
    ∃ t, RelocReach img s t ∧ t.1.pc.relocating = false ∧ ∃ n', RelocState img L m0 n' t.1 t.2 := by
  induction n using Nat.strong_induction_on with
  | _ n ih =>
      intro s hs
      by_cases hrel : s.1.pc.relocating = true
      · obtain ⟨n', h', m', hrun, hnext, hlt⟩ :=
          hs.step (fun _ => hord) (fun _ => hal) (fun _ => hne) hload hrel
        obtain ⟨t, hreach, hdone, hfinal⟩ := ih n' hlt (h', m') hnext
        exact ⟨t, ReflTransGen.head ⟨hrel, hrun⟩ hreach, hdone, hfinal⟩
      · exact ⟨s, ReflTransGen.refl, by simpa using hrel, n, hs⟩

theorem Image.relocated_move (img : Image b) (L : BitVec (8 * b)) (m0 : Memory (8 * b)) :
    img.Relocated L m0 (move img.runAddr L img.size m0) where
  copied := fun _ hi => move_inside _ _ _ _ _ hi (Nat.lt_trans hi img.size_lt)
  frame := fun _ hx => move_of_not_inRange _ _ _ _ _ hx

theorem Image.Relocated.loadWord_run {m : Memory (8 * b)} (hm : img.Relocated L m0 m) (s : Symbol)
    (hs : s.isWord = true) :
    (loadWord m (img.addr img.runAddr s) : BitVec (8 * b)) = loadWord m0 (img.addr L s) := by
  have hle := img.word_le_size s hs
  apply loadWord_congr
  intro i hi
  simp only [Image.addr, add_assoc, ← BitVec.ofNat_add]
  exact hm.copied _ (by omega)

theorem RelocState.stopped {n : Nat} {h : Hart b} {m : Memory (8 * b)}
    (hs : RelocState img L m0 n h m) (hdone : h.pc.relocating = false) :
    h.pc = .startHang ∨
      (h.pc = .relocateJump (img.addr img.runAddr .relocateDone) ∧
        m = move img.runAddr L img.size m0 ∧ img.Spares L) := by
  cases hs with
  | hang hpc => exact Or.inl hpc
  | jump hpc hspares => exact Or.inr ⟨hpc, rfl, hspares⟩
  | entry hpc | sized hpc | placed hpc | lowerLoad hpc | lowerStore hpc | upperLoad hpc
  | upperStore hpc => simp [hpc, Pc.relocating] at hdone

theorem RelocReach.of_step {s s' u : Hart b × Memory (8 * b)} (hstep : RelocStep img s s')
    (hu : RelocReach img s u) : u = s ∨ RelocReach img s' u := by
  rcases hu.cases_head with heq | ⟨v, hfirst, hrest⟩
  · exact Or.inl heq.symm
  · rw [relocStep_unique hfirst hstep] at hrest
    exact Or.inr hrest

/-- The three loads of `_relocate`, before which nothing is stored. -/
theorem relocation_enters (hload : img.LoadedAt L m0) {h0 : Hart b} (hbase : h0.base = L)
    (hpc : h0.pc = .relocate) :
    ∃ h, h.base = L ∧ h.t0 = img.runAddr ∧ h.t1 = BitVec.ofNat (8 * b) img.size ∧ h.t2 = L ∧
      RelocReach img (h0, m0) (Hart.relocateBranch img h, m0) ∧
      ∀ u, RelocReach img (h0, m0) u →
        u.2 = m0 ∨ RelocReach img (Hart.relocateBranch img h, m0) u := by
  let h1 : Hart b := { h0 with t0 := img.runAddr, pc := .relocateSize }
  let h2 : Hart b := { h1 with t1 := BitVec.ofNat (8 * b) img.size, pc := .relocateLoadStart }
  have hstep0 : RelocStep img (h0, m0) (h1, m0) := by
    refine ⟨by simp [hpc, Pc.relocating], ?_⟩
    simp [Hart.step, Hart.action, hpc, Action.exec, Hart.la, hbase, hload.run_addr, h1]
  have hstep1 : RelocStep img (h1, m0) (h2, m0) := by
    refine ⟨by simp [h1, Pc.relocating], ?_⟩
    simp [Hart.step, Hart.action, Action.exec, Hart.la, hbase, hload.image_size, h1, h2]
  have hstep2 : RelocStep img (h2, m0) (Hart.relocateBranch img { h2 with t2 := L }, m0) := by
    refine ⟨by simp [h2, Pc.relocating], ?_⟩
    simp [Hart.step, Hart.action, Action.exec, Hart.la, hbase, hload.load_start, h1, h2]
  refine ⟨{ h2 with t2 := L }, hbase, rfl, rfl, rfl, .head hstep0 (.head hstep1 (.single hstep2)),
    ?_⟩
  intro u hu
  rcases hu.of_step hstep0 with rfl | hu
  · exact Or.inl rfl
  · rcases hu.of_step hstep1 with rfl | hu
    · exact Or.inl rfl
    · rcases hu.of_step hstep2 with rfl | hu
      · exact Or.inl rfl
      · exact Or.inr hu

theorem RelocState.hang_touches {n : Nat} {h h' : Hart b} {m m' : Memory (8 * b)}
    (hs : RelocState img L m0 n h m) (hord : img.CopyOrdered L) (hal : img.WordsBelow L)
    (hne : L ≠ img.runAddr) (hload : img.LoadedAt L m0) (hrel : h.pc.relocating = true)
    (hstep : Hart.step img (h, m) = some (h', m')) (hhang : h'.pc = .startHang) :
    img.Touches L := by
  have hcopy : h.pc.copying ≠ true := by
    intro hcopy
    have hnext := copying_step (s := (h, m)) hcopy hrel hstep
    rw [hhang] at hnext
    cases hnext
  cases hs with
  | placed hpc hbase ht0 ht1 =>
      have hbranch : Hart.step img (h, m0) =
          some (Hart.relocateBranch img { h with t2 := L }, m0) := by
        simp [Hart.step, Hart.action, hpc, Action.exec, Hart.la, hbase, hload.load_start]
      cases hbranch.symm.trans hstep
      rcases relocateBranch_cases img L { h with t2 := L } hord hal hne hbase ht0 ht1 rfl with
        ⟨_, htouch⟩ | ⟨hpc', _⟩ | ⟨hpc', _⟩
      · exact htouch
      · rw [hpc'] at hhang
        cases hhang
      · rw [hpc'] at hhang
        cases hhang
  | entry hpc | sized hpc =>
      simp only [Hart.step, Hart.action, hpc, Action.exec, Option.some.injEq,
        Prod.mk.injEq] at hstep
      rw [← hstep.1] at hhang
      cases hhang
  | hang hpc => simp [hpc, Pc.relocating] at hrel
  | lowerLoad hpc | lowerStore hpc | upperLoad hpc | upperStore hpc | jump hpc =>
      simp [hpc, Pc.copying] at hcopy

theorem copying_reach {s t : Hart b × Memory (8 * b)} (hreach : RelocReach img s t)
    (hcopy : s.1.pc.copying = true) : t.1.pc.copying = true := by
  induction hreach with
  | refl => exact hcopy
  | tail _ hstep ih => exact copying_step ih hstep.1 hstep.2

/-- The run ends in one of two ways: in the hang loop, because of an overlap and with
memory as it was, or at the jump with the image moved. -/
theorem relocation_ends (hord : img.CopyOrdered L) (hal : img.WordsBelow L)
    (hne : L ≠ img.runAddr) (hload : img.LoadedAt L m0) (h0 : Hart b) (hbase : h0.base = L)
    (hpc : h0.pc = .relocate) :
    (∃ t, RelocReach img (h0, m0) t ∧ t.1.pc = .startHang ∧ img.Touches L ∧
      ∀ u, RelocReach img (h0, m0) u → u.2 = m0) ∨
    (∃ t, RelocReach img (h0, m0) t ∧
      t.1.pc = .relocateJump (img.addr img.runAddr .relocateDone) ∧
      t.2 = move img.runAddr L img.size m0 ∧ img.Spares L) := by
  have hentry : RelocState img L m0 _ (h0, m0).1 (h0, m0).2 := .entry hpc hbase
  obtain ⟨t, hreach, hdone, n', hfinal⟩ := hentry.finishes hord hal hne hload
  rcases hfinal.stopped hdone with hhang | hjump
  · refine Or.inl ⟨t, hreach, hhang, ?_, ?_⟩
    · obtain hsame | ⟨u, hbefore, hrel, hstep⟩ := hreach.cases_tail
      · rw [hsame, hpc] at hhang
        cases hhang
      · obtain ⟨k, hstate⟩ := hentry.reach hord hal hne hload hbefore
        exact hstate.hang_touches hord hal hne hload hrel hstep hhang
    intro u hu
    obtain ⟨k, hstate⟩ := hentry.reach hord hal hne hload hu
    apply hstate.unchanged
    by_contra hcopy
    rcases ReflTransGen.total_of_right_unique relocStep_unique hreach hu with htu | hut
    · rcases ReflTransGen.cases_head htu with heq | ⟨v, hstep, _⟩
      · rw [← heq, hhang] at hcopy
        exact hcopy rfl
      · rw [hstep.1] at hdone
        cases hdone
    · have hcopying := copying_reach hut (by simpa using hcopy)
      rw [hhang] at hcopying
      cases hcopying
  · exact Or.inr ⟨t, hreach, hjump⟩

theorem status_steps {h : Hart b} {m : Memory (8 * b)}
    (hpc : h.pc = .relocateJump (img.addr img.runAddr .relocateDone))
    (hrun : loadWord m (img.addr img.runAddr .headerImageRunAddr) = img.runAddr)
    (hstart : loadWord m (img.addr img.runAddr .loadStart) = L) :
    ∃ h1 h2 h3, Hart.step img (h, m) = some (h1, m) ∧ h1.pc = .relocateDone ∧
      Hart.step img (h1, m) = some (h2, m) ∧ h2.pc = .doneLoadStart ∧
      Hart.step img (h2, m) = some (h3, m) ∧ h3.pc = .doneStatus ∧
      h3.base = img.runAddr ∧ h3.t0 = img.addr L .bootStatus ∧ h3.t1 = 1 := by
  have haddr : img.addr img.runAddr .bootStatus - img.runAddr + L = img.addr L .bootStatus := by
    simp only [Image.addr]
    ring
  let h1 : Hart b := { h with base := img.runAddr, pc := .relocateDone }
  let h2 : Hart b := { h1 with
    t0 := img.addr img.runAddr .bootStatus
    t1 := img.runAddr
    pc := .doneLoadStart }
  let h3 : Hart b := { h2 with
    t2 := L
    t0 := img.addr L .bootStatus
    t1 := 1
    pc := .doneStatus }
  have hstep1 : Hart.step img (h, m) = some (h1, m) := by
    simp [Hart.step, Hart.action, hpc, Action.exec, Hart.land, h1]
  have hstep2 : Hart.step img (h1, m) = some (h2, m) := by
    simp [Hart.step, Hart.action, h1, h2, Action.exec, Hart.la, hrun]
  have hstep3 : Hart.step img (h2, m) = some (h3, m) := by
    simp [Hart.step, Hart.action, h1, h2, h3, Action.exec, Hart.la, hstart, haddr]
  exact ⟨h1, h2, h3, hstep1, rfl, hstep2, rfl, hstep3, rfl, rfl, rfl, rfl⟩

/-- From the jump on, the hart of the run copy stores 1 to the boot status of
the load copy and changes nothing else on the way. -/
theorem status_store {t : Hart b × Memory (8 * b)}
    (hpc : t.1.pc = .relocateJump (img.addr img.runAddr .relocateDone))
    (hrun : loadWord t.2 (img.addr img.runAddr .headerImageRunAddr) = img.runAddr)
    (hstart : loadWord t.2 (img.addr img.runAddr .loadStart) = L) :
    ∃ v, Runs img t v ∧ v.1.base = img.runAddr ∧ v.1.pc = .doneFence ∧
      v.2 = storeWord t.2 (img.addr L .bootStatus) (1 : BitVec (8 * b)) := by
  obtain ⟨h, m⟩ := t
  obtain ⟨h1, h2, h3, hstep1, _, hstep2, _, hstep3, hpc3, hbase, ht0, ht1⟩ :=
    status_steps hpc hrun hstart
  have hstep4 : Hart.step img (h3, m) =
      some ({ h3 with pc := .doneFence },
        storeWord m (img.addr L .bootStatus) (1 : BitVec (8 * b))) := by
    simp [Hart.step, Hart.action, hpc3, ht0, ht1, Action.exec]
  exact ⟨_, .head hstep1 (.head hstep2 (.head hstep3 (.single hstep4))), hbase, rfl, rfl⟩

/-- A store outside the run copy leaves the relocated image as it is. -/
theorem Image.Relocated.storeWord_spared {m : Memory (8 * b)} (hm : img.Relocated L m0 m)
    (a v : BitVec (8 * b)) (hspared : Disjoint img.runAddr img.size a b) (i : Nat)
    (hi : i < img.size) :
    storeWord m a v (img.runAddr + BitVec.ofNat (8 * b) i) =
      m0 (L + BitVec.ofNat (8 * b) i) := by
  rw [storeWord_of_not_inRange]
  · exact hm.copied i hi
  · exact hspared _ (inRange_add _ _ _ hi (Nat.lt_trans hi img.size_lt))

theorem RelocState.protected {n : Nat} {h : Hart b} {m : Memory (8 * b)}
    (hs : RelocState img L m0 n h m) (hord : L ≠ img.runAddr → img.CopyOrdered L) :
    img.Protected L m0 m := by
  rcases hs.spares with rfl | hspares
  · exact ⟨fun _ _ => rfl, fun _ _ => rfl, fun _ _ => rfl⟩
  · exact ⟨fun x hx => hs.frame hord x (hspares.code.symm x hx),
      fun x hx => hs.frame hord x (hspares.lottery.symm x hx),
      fun x hx => hs.frame hord x (hspares.boot_status.symm x hx)⟩

end Runs

/-- The addresses of a 64-bit build that stay below `2 ^ 63` are ordered by the
signed branches. -/
theorem Image.ordered_of_lt (img : Image 8) (L : BitVec (8 * 8)) (hL : L.toNat + img.size < 2 ^ 63)
    (hR : img.runAddr.toNat + img.size < 2 ^ 63) : img.Ordered L := by
  have hl := BitVec.toInt_eq_toNat_cond L
  have hr := BitVec.toInt_eq_toNat_cond img.runAddr
  constructor <;> simp only [Nat.reduceMul, Nat.reduceSub, Nat.reducePow, Int.reducePow] at * <;>
    split at hl <;> split at hr <;> omega

/-- Self-relocation of the 64-bit build, for every placement of the two copies
below `2 ^ 63` and every memory. -/
theorem relocation_overlap_safe (img : Image 8) (L : BitVec (8 * 8)) (m0 : Memory (8 * 8))
    (h0 : Hart 8) (hne : L ≠ img.runAddr) (hL : L.toNat % 8 = 0) (hR : img.runAddr.toNat % 8 = 0)
    (hLtop : L.toNat + img.size < 2 ^ 63) (hRtop : img.runAddr.toNat + img.size < 2 ^ 63)
    (hload : img.LoadedAt L m0) (hbase : h0.base = L) (hpc : h0.pc = .relocate) :
    (∃ t, RelocReach img (h0, m0) t ∧ t.1.pc = .startHang ∧ img.Touches L ∧
      ∀ u, RelocReach img (h0, m0) u → u.2 = m0) ∨
    (∃ t, RelocReach img (h0, m0) t ∧
      t.1.pc = .relocateJump (img.addr L .relocateDone - L + img.runAddr) ∧
      img.Relocated L m0 t.2 ∧
      (∀ u, RelocReach img (h0, m0) u → img.Protected L m0 u.2) ∧
      ∃ v, Runs img t v ∧ v.1.base = img.runAddr ∧ v.1.pc = .doneFence ∧
        v.2 = storeWord t.2 (img.addr L .bootStatus) (1 : BitVec (8 * 8)) ∧
        Disjoint img.runAddr img.size (img.addr L .bootStatus) 8 ∧
        ∀ i, i < img.size →
          v.2 (img.runAddr + BitVec.ofNat _ i) = m0 (L + BitVec.ofNat _ i)) := by
  have hord := (img.ordered_of_lt L hLtop hRtop).copyOrdered
  have hal := (Image.Aligned.mk hL hR : img.Aligned L).wordsBelow
  have hentry : RelocState img L m0 _ (h0, m0).1 (h0, m0).2 := .entry hpc hbase
  rcases relocation_ends hord hal hne hload h0 hbase hpc with
    hhang | ⟨t, hreach, hjump, hmem, hsp⟩
  · exact Or.inl hhang
  · right
    have hmoved : img.Relocated L m0 t.2 := by
      rw [hmem]
      exact img.relocated_move L m0
    have htarget : img.addr L .relocateDone - L + img.runAddr =
        img.addr img.runAddr .relocateDone := by
      simp only [Image.addr]
      ring
    obtain ⟨v, hruns, hvbase, hvpc, hvmem⟩ := status_store (L := L) hjump
      ((hmoved.loadWord_run .headerImageRunAddr rfl).trans hload.run_addr)
      ((hmoved.loadWord_run .loadStart rfl).trans hload.load_start)
    refine ⟨t, hreach, htarget ▸ hjump, hmoved, ?_, v, hruns, hvbase, hvpc, hvmem,
      hsp.boot_status, ?_⟩
    · intro u hu
      obtain ⟨n, hstate⟩ := hentry.reach hord hal hne hload hu
      exact hstate.protected (fun _ => hord)
    · intro i hi
      rw [hvmem]
      exact hmoved.storeWord_spared _ _ hsp.boot_status i hi

/-- Partially overlapping placement: the load copy starts in the middle of the run copy,
which ends in front of the relocation code. -/
theorem relocation_overlap_safe_sample :
    let img := Image.sample 8 (Or.inr rfl) 0x84000000
    let L : BitVec (8 * 8) := 0x84003000
    let h0 : Hart 8 := ⟨L, .relocate, 0, 0, 0, 0, 0, 0, 0, 0, 0, 0, 0⟩
    let m0 := img.place L (fun _ => 0x13)
    img.runAddr.toNat < L.toNat ∧ L.toNat < img.runAddr.toNat + img.size ∧
      ∃ t, RelocReach img (h0, m0) t ∧
        t.1.pc = .relocateJump (img.addr L .relocateDone - L + img.runAddr) ∧
        img.Relocated L m0 t.2 := by
  intro img L h0 m0
  refine ⟨by decide, by decide, ?_⟩
  rcases relocation_overlap_safe img L m0 h0 (by decide) (by decide) (by decide) (by decide)
    (by decide) (img.loadedAt_place L _) rfl rfl with
    ⟨_, _, _, ⟨x, hrun, htouch⟩, _⟩ | ⟨t, hreach, hpc, hmoved, _⟩
  · exfalso
    rcases htouch with hx | hx | hx
    · exact disjoint_of_dist _ _ _ _ (by decide) (by decide) x hrun hx
    · exact disjoint_of_dist _ _ _ _ (by decide) (by decide) x hrun hx
    · exact disjoint_of_dist _ _ _ _ (by decide) (by decide) x hrun hx
  · exact ⟨t, hreach, hpc, hmoved⟩

end ZStage.Head
