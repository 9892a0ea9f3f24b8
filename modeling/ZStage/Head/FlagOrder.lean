import ZStage.Head.Flight
import ZStage.Head.WaitLoop
import ZStage.Head.BootProtocol

/-!
The two flags of the boot hart and the data they announce: the boot status of the
load copy tells the waiting harts that the image stands at its run address, and the
spin word of the run copy that `zstage_main` is done. head.S has a fence behind each
of the two flag stores and none in front, so a flag can reach memory ahead of the
stores it announces. The results say that nothing else goes wrong: in every run in
which a flag store finds none of the announced stores in flight, no flag is seen
early.
-/

namespace ZStage.Head

open ZStage.Lib.ByteMemory ZStage.Lib.StoreBuffer Relation

variable {b : Nat}

namespace Flight

/-- The copy is over and all its stores are delivered. -/
structure CopyDelivered (s : Flight b) : Prop where
  ended : 3 ≤ s.hart.pc.stage
  delivered : ∀ q ∈ s.pending, q.label ≠ .relocation

structure MainDelivered (s : Flight b) : Prop where
  returned : s.hart.pc.mainReturned = true
  delivered : ∀ q ∈ s.pending, q.label ≠ .main

/-- The boot status as the other harts see it. -/
def bootStatus (img : Image b) (L : BitVec (8 * b)) (s : Flight b) : BitVec (8 * b) :=
  loadWord s.mem (img.addr L .bootStatus)

def spinWord (img : Image b) (s : Flight b) : BitVec (8 * b) :=
  loadWord s.mem (img.addr img.runAddr .spinAddr)

/-- No flag is seen before what it announces. A hart looks at the spin word where
the image runs in place, or after the boot status has let it go there. -/
structure FlagsFollow (img : Image b) (L : BitVec (8 * b)) (s : Flight b) : Prop where
  status : s.bootStatus img L ≠ 0#(8 * b) → s.CopyDelivered
  spin : L = img.runAddr ∨ s.bootStatus img L ≠ 0#(8 * b) → s.spinWord img ≠ 0#(8 * b) →
    s.MainDelivered

/-- What a move of the boot hart has to keep to, as a fence in front of the flag
store would see to it: a flag store finds nothing that it announces in flight. And
`zstage_main` does not itself store to the spin word. -/
structure Orderly (img : Image b) (s t : Flight b) : Prop where
  status : s.hart.pc = .doneStatus → ∀ q ∈ s.pending, q.label ≠ .relocation
  spin : s.hart.pc = .spinStore → ∀ q ∈ s.pending, q.label ≠ .main
  main_misses : ∀ q ∈ t.pending, q.label = .main → q.Misses (img.addr img.runAddr .spinAddr) b

/-- The boot hart has won the lottery, with nothing in flight and the flags of the
loaded image zero. -/
structure Won (img : Image b) (L : BitVec (8 * b)) (s : Flight b) : Prop where
  pc : s.hart.pc = .saveLoadStart
  base : s.hart.base = L
  pending : s.pending = []
  run_addr : loadWord s.mem (img.addr L .headerImageRunAddr) = img.runAddr
  image_size : loadWord s.mem (img.addr L .headerImageSize) = BitVec.ofNat (8 * b) img.size
  status : loadWord s.mem (img.addr L .bootStatus) = 0#(8 * b)
  spin : loadWord s.mem (img.addr L .spinAddr) = 0#(8 * b)

end Flight

section Copy

variable {img : Image b} {L : BitVec (8 * b)} {m0 m m' : Memory (8 * b)} {h h' : Hart b}

/-- The guards look at the words on both sides of the saved load address, so it is
spared too. -/
theorem Image.Spares.load_start (hspares : img.Spares L) :
    Disjoint img.runAddr img.size (img.addr L .loadStart) b := by
  intro x hx hword
  have hsize := img.word_le_size .stackTop rfl
  have hfit := img.size_lt
  have hxb := (x - img.runAddr).isLt
  have hone := toNat_sub_ofNat (x - img.runAddr) b (by omega)
  simp only [Image.offset] at hsize
  unfold InRange at hx
  by_cases hlow : b ≤ (x - img.runAddr).toNat
  · -- one word below lies the lottery
    apply hspares.lottery (x - BitVec.ofNat (8 * b) b)
    · have hsub : x - BitVec.ofNat (8 * b) b - img.runAddr =
          x - img.runAddr - BitVec.ofNat (8 * b) b := by ring
      unfold InRange
      rw [hsub, hone, if_pos hlow]
      omega
    · have hsub : x - BitVec.ofNat (8 * b) b - img.addr L .relocateLottery =
          x - img.addr L .loadStart := by
        simp only [Image.addr, Image.offset, BitVec.ofNat_add]
        ring
      unfold InRange
      rw [hsub]
      exact hword
  · -- two words above lies the boot status
    apply hspares.boot_status (x + BitVec.ofNat (8 * b) (2 * b))
    · have hsub : x + BitVec.ofNat (8 * b) (2 * b) - img.runAddr =
          x - img.runAddr + BitVec.ofNat (8 * b) (2 * b) := by ring
      unfold InRange
      rw [hsub, toNat_add_ofNat _ _ (by omega)]
      omega
    · have hsub : x + BitVec.ofNat (8 * b) (2 * b) - img.addr L .bootStatus =
          x - img.addr L .loadStart := by
        have hoff : img.data + 3 * b = img.data + b + 2 * b := by omega
        simp only [Image.addr, Image.offset, hoff, BitVec.ofNat_add]
        ring
      unfold InRange
      rw [hsub]
      exact hword

theorem RelocState.copy_store {n : Nat} (hs : RelocState img L m0 n h m)
    {a v : BitVec (8 * b)} {k : Hart b} (haction : h.action img = .store a v k) :
    h.pc.origin = .relocation ∧ L ≠ img.runAddr ∧ img.Spares L ∧
      ∃ i, a = img.runAddr + BitVec.ofNat (8 * b) i ∧ i + b ≤ img.size := by
  cases hs with
  | entry hpc | sized hpc | placed hpc | hang hpc | lowerLoad hpc | upperLoad hpc | jump hpc =>
      simp [Hart.action, hpc] at haction
  | @lowerStore _ k hpc hregs hk hlt hspares =>
      simp only [Hart.action, hpc, hregs.t0, Action.store.injEq] at haction
      have hfit := img.mul_succ_le hk
      rw [Nat.mul_succ] at hfit
      exact ⟨by rw [hpc]; rfl, (ne_of_toInt_lt hlt).symm, hspares, b * k, haction.1.symm, hfit⟩
  | @upperStore _ k hpc hregs hk hlt hspares =>
      simp only [Hart.action, hpc, hregs.t1, Action.store.injEq] at haction
      have hfit := img.mul_succ_le hk
      rw [Nat.mul_succ] at hfit
      exact ⟨by rw [hpc]; rfl, ne_of_toInt_lt hlt, hspares, img.size - b * (k + 1),
        haction.1.symm, by rw [Nat.mul_succ]; omega⟩

/-- With the image in place, nothing changes in memory before the boot status. -/
theorem BootState.in_place (hs : BootState img L m0 h m) (hin : L = img.runAddr)
    (hpc : h.pc ≠ .doneFence) : m = m0 := by
  have hmove : move img.runAddr L img.size m0 = m0 := by
    rw [hin]
    exact move_self _ _ _
  cases hs with
  | reloc hs =>
      cases hs with
      | entry | sized | placed | hang => rfl
      | lowerLoad _ _ _ hlt | lowerStore _ _ _ hlt => exact absurd hin (ne_of_toInt_lt hlt).symm
      | upperLoad _ _ _ hlt | upperStore _ _ _ hlt => exact absurd hin (ne_of_toInt_lt hlt)
      | jump => exact hmove
  | done | loadStart | status => exact hmove
  | fence hpc' => exact absurd hpc' hpc

/-- The only ways to the boot-status store and to the fence behind it. -/
theorem status_of_step (hstep : Hart.step img (h, m) = some (h', m')) :
    (h'.pc = .doneStatus → h.pc = .doneLoadStart ∧ h'.base = h.base) ∧
      (h'.pc = .doneFence → h.pc = .doneStatus) := by
  have hbranch (k : Hart b) : (Hart.relocateBranch img k).pc ≠ .doneStatus ∧
      (Hart.relocateBranch img k).pc ≠ .doneFence := by
    have htarget := (Hart.relocateBranch_target img k).2
    constructor <;> rintro hpc <;> simp [hpc] at htarget
  cases hpc : h.pc <;> simp only [Hart.step, Hart.action, hpc, Action.exec, Option.some.injEq,
    Prod.mk.injEq, reduceCtorEq] at hstep <;> obtain ⟨rfl, rfl⟩ := hstep
  case relocateLoadStart =>
      exact ⟨fun hpc' => absurd hpc' (hbranch _).1, fun hpc' => absurd hpc' (hbranch _).2⟩
  case startHang => simp [hpc]
  all_goals
    simp only [Hart.land, Hart.copyToLowerNext, Hart.copyToUpperNext, Hart.bssZeroNext,
      apply_ite Hart.pc]
  all_goals (repeat' split) <;> simp

theorem BootState.issues (hs : BootState img L m0 h m) {a v : BitVec (8 * b)} {k : Hart b}
    (haction : h.action img = .store a v k) :
    h.pc = .doneStatus ∧ a = img.addr L .bootStatus ∧ (L = img.runAddr ∨ img.Spares L) ∨
      h.pc.origin = .relocation ∧ L ≠ img.runAddr ∧
        Disjoint a b (img.addr L .bootStatus) b := by
  cases hs with
  | reloc hs =>
      obtain ⟨horigin, hne, hspares, i, rfl, hfit⟩ := hs.copy_store haction
      refine Or.inr ⟨horigin, hne, ?_⟩
      intro x hx
      exact hspares.boot_status x (inRange_mono hfit (Nat.le_of_lt img.size_lt) hx)
  | status hpc ht0 _ hspares =>
      simp only [Hart.action, hpc, Action.store.injEq] at haction
      exact Or.inl ⟨hpc, haction.1.symm.trans ht0, hspares⟩
  | done hpc | loadStart hpc | fence hpc => simp [Hart.action, hpc] at haction

theorem BootState.at_status (hs : BootState img L m0 h m) (hpc : h.pc = .doneStatus) :
    h.t0 = img.addr L .bootStatus ∧ (L = img.runAddr ∨ img.Spares L) ∧
      m = move img.runAddr L img.size m0 := by
  cases hs with
  | status _ ht0 _ hspares => exact ⟨ht0, hspares, rfl⟩
  | done hpc' | loadStart hpc' | fence hpc' => rw [hpc] at hpc'; cases hpc'
  | reloc hs =>
      cases hs with
      | entry hpc' | sized hpc' | placed hpc' | hang hpc' | lowerLoad hpc' | lowerStore hpc'
      | upperLoad hpc' | upperStore hpc' | jump hpc' => rw [hpc] at hpc'; cases hpc'

theorem BootState.base_of_step (hs : BootState img L m0 h m)
    (hstep : Hart.step img (h, m) = some (h', m')) (hpc' : h'.pc = .doneStatus) :
    h'.base = img.runAddr := by
  obtain ⟨hpc, hbase⟩ := (status_of_step hstep).1 hpc'
  cases hs with
  | loadStart _ hrun => exact hbase.trans hrun
  | done hpc' | status hpc' | fence hpc' => rw [hpc] at hpc'; cases hpc'
  | reloc hs =>
      cases hs with
      | entry hpc' | sized hpc' | placed hpc' | hang hpc' | lowerLoad hpc' | lowerStore hpc'
      | upperLoad hpc' | upperStore hpc' | jump hpc' => rw [hpc] at hpc'; cases hpc'

theorem BootState.pc_cases (hs : BootState img L m0 h m) (hpc : h.pc ≠ .doneFence) :
    h.pc.beforeStatus = true ∨ h.pc = .startHang := by
  cases hs with
  | reloc hs =>
      cases hs with
      | hang hpc' => exact Or.inr hpc'
      | entry hpc' | sized hpc' | placed hpc' | lowerLoad hpc' | lowerStore hpc' | upperLoad hpc'
      | upperStore hpc' | jump hpc' => exact Or.inl (by rw [hpc']; rfl)
  | done hpc' | loadStart hpc' | status hpc' => exact Or.inl (by rw [hpc']; rfl)
  | fence hpc' => exact absurd hpc' hpc

end Copy

/-! ### The boot hart in the run copy -/

/-- The points from the fence behind the boot-status store on at which the hart
stores at most words of its own. -/
def Pc.late : Pc b → Bool
  | .doneFence | .saveBootArg1 | .stackTop | .loadBootArg1 | .main | .spinNextRun | .spinStore
  | .jumpFdt | .jumpRun | .nextStage _ => true
  | _ => false

/-- The boot hart in the run copy, after the boot-status store. -/
inductive LateAt (img : Image b) (h : Hart b) : Prop
  | run (hbase : h.base = img.runAddr) (hpc : h.pc.late = true)
  | bss {j : Nat} (hpc : h.pc = .bssZero) (hbase : h.base = img.runAddr)
      (ht1 : h.t1 = img.runAddr + BitVec.ofNat (8 * b) (img.bssStart + b * j))
      (ht2 : h.t2 = img.addr img.runAddr .bssEnd) (hj : img.bssStart + b * j < img.bssEnd)

section Late

variable {img : Image b} {m m' : Memory (8 * b)} {h h' : Hart b}

theorem bss_misses_spin (img : Image b) {i : Nat} (hstart : img.bssStart ≤ i)
    (hend : i + b ≤ img.bssEnd) :
    Disjoint (img.runAddr + BitVec.ofNat (8 * b) i) b (img.addr img.runAddr .spinAddr) b := by
  have hword := img.word_le .spinAddr rfl
  have htable := img.blobTable_le
  have hbss := img.bss_le
  have hfit := img.size_lt
  exact disjoint_of_offsets _ _ _ _ _ (by omega) (by omega) (by omega)

theorem LateAt.step (hs : LateAt img h) (hpc : h.pc ≠ .spinStore)
    (hstep : Hart.step img (h, m) = some (h', m')) : LateAt img h' := by
  cases hs with
  | run hbase hlate =>
      cases hpc' : h.pc <;> simp only [hpc', Pc.late, Bool.false_eq_true] at hlate <;>
        simp only [Hart.step, Hart.action, hpc', Action.exec, Option.some.injEq, Prod.mk.injEq,
          reduceCtorEq] at hstep <;> obtain ⟨rfl, rfl⟩ := hstep
      case saveBootArg1 =>
          refine .bss (j := 0) rfl hbase ?_ ?_ (by simpa using img.bss_lt)
          · simp [Hart.la, hbase, Image.addr, Image.offset]
          · simp [Hart.la, hbase]
      case spinStore => exact absurd hpc' hpc
      all_goals exact .run hbase rfl
  | @bss j hpc' hbase ht1 ht2 hj =>
      simp only [Hart.step, Hart.action, hpc', Action.exec, Option.some.injEq,
        Prod.mk.injEq] at hstep
      obtain ⟨rfl, rfl⟩ := hstep
      obtain ⟨hbase', ⟨hnext, ht1', ht2', hlt⟩ | hnext⟩ :=
        Hart.bssZeroNext_cases hbase ht1 ht2 hj
      · exact .bss hnext hbase' ht1' ht2' hlt
      · exact .run hbase' (by rw [hnext]; rfl)

theorem LateAt.issues (hs : LateAt img h) (hpc : h.pc ≠ .spinStore) {a v : BitVec (8 * b)}
    {k : Hart b} (haction : h.action img = .store a v k) :
    h.pc.origin = .other ∧ Disjoint a b (img.addr img.runAddr .spinAddr) b := by
  cases hs with
  | run hbase hlate =>
      cases hpc' : h.pc <;> simp only [hpc', Pc.late, Bool.false_eq_true] at hlate <;>
        simp only [Hart.action, hpc', Action.store.injEq, reduceCtorEq] at haction
      case saveBootArg1 =>
          refine ⟨rfl, ?_⟩
          rw [← haction.1, Hart.la, hbase]
          exact img.words_disjoint _ _ _ rfl rfl (by decide)
      case spinStore => exact absurd hpc' hpc
  | @bss j hpc' hbase ht1 ht2 hj =>
      simp only [Hart.action, hpc', Action.store.injEq] at haction
      refine ⟨by rw [hpc']; rfl, ?_⟩
      rw [← haction.1, ht1]
      exact bss_misses_spin img (by omega) (bss_next img hj)

/-- Up to its own store of the spin word the boot hart leaves that word alone. -/
theorem LateAt.spin_kept (hs : LateAt img h) (hpc : h.pc ≠ .spinStore)
    (hstep : Hart.step img (h, m) = some (h', m')) :
    (loadWord m' (img.addr img.runAddr .spinAddr) : BitVec (8 * b)) =
      loadWord m (img.addr img.runAddr .spinAddr) := by
  cases haction : h.action img with
  | store a v k =>
      simp only [Hart.step, haction, Action.exec, Option.some.injEq, Prod.mk.injEq] at hstep
      rw [← hstep.2]
      exact loadWord_storeWord_of_disjoint _ _ _ _ img.b_le (hs.issues hpc haction).2
  | goto k | load a k | fence k =>
      simp only [Hart.step, haction, Action.exec, Option.some.injEq, Prod.mk.injEq] at hstep
      rw [hstep.2]
  | amoAddW a v k =>
      have hstart := Hart.start_of_amo haction
      cases hs with
      | run _ hlate => simp [hstart, Pc.late] at hlate
      | bss hpc' => rw [hstart] at hpc'; cases hpc'
  | call k | halt => simp [Hart.step, haction, Action.exec] at hstep

theorem stage_spun (hstage : h.pc.stage = 8) (hstep : Hart.step img (h, m) = some (h', m')) :
    h'.pc.stage = 8 ∧ ∀ a v k, h.action img ≠ .store a v k := by
  cases hpc : h.pc <;> simp [hpc, Pc.stage] at hstage <;>
    simp only [Hart.step, Hart.action, hpc, Action.exec, Option.some.injEq, Prod.mk.injEq,
      reduceCtorEq] at hstep <;> obtain ⟨rfl, rfl⟩ := hstep <;>
    exact ⟨rfl, by simp [Hart.action, hpc]⟩

end Late

/-! ### The invariant of a run -/

/-- A store that can be in flight up to the boot-status store: one of the copy, or the
one that saved the load address. -/
def Image.CopyStore (img : Image b) (L : BitVec (8 * b)) (q : Store (8 * b) Origin) : Prop :=
  (q.label = .relocation ∧ L ≠ img.runAddr ∧ q.Misses (img.addr L .bootStatus) b) ∨
    (q.label = .other ∧ q.addr = img.addr L .loadStart ∧ q.size = b)

/-- The boot hart on the way to the boot-status store. -/
structure Flight.Copying (img : Image b) (L : BitVec (8 * b)) (m0 : Memory (8 * b))
    (s : Flight b) : Prop where
  boot : BootState img L m0 s.hart s.seen
  pc : s.hart.pc ≠ .doneFence
  base : s.hart.pc = .doneStatus → s.hart.base = img.runAddr
  pending : ∀ q ∈ s.pending, img.CopyStore L q

/-- What a run of the boot hart goes through, with `m0` the memory that the hart
relocates from. It speaks of memory as the hart sees it and of the stores in flight
one by one, so deliveries keep it. -/
inductive FlightInv (img : Image b) (L : BitVec (8 * b)) (m0 : Memory (8 * b)) (s : Flight b) :
    Prop
  | won (hwon : s.Won img L) (hm0 : m0 = storeWord s.mem (img.addr L .loadStart) L)
  | copying (hcopy : s.Copying img L m0)
  | running (hlate : LateAt img s.hart)
      (hspin : loadWord s.seen (img.addr img.runAddr .spinAddr) = 0#(8 * b))
      (hpending : ∀ q ∈ s.pending, q.label ≠ .relocation ∧
        q.Misses (img.addr img.runAddr .spinAddr) b)
  | spun (hstage : s.hart.pc.stage = 8)
      (hpending : ∀ q ∈ s.pending, q.label ≠ .relocation ∧ q.label ≠ .main)

section Invariant

variable {img : Image b} {L : BitVec (8 * b)} {m0 : Memory (8 * b)} {s t : Flight b}

theorem Image.CopyStore.misses {q : Store (8 * b) Origin} (hq : img.CopyStore L q) :
    q.Misses (img.addr L .bootStatus) b := by
  rcases hq with ⟨_, _, hmiss⟩ | ⟨_, haddr, hsize⟩
  · exact hmiss
  · unfold Store.Misses
    rw [haddr, hsize]
    exact img.words_disjoint L _ _ rfl rfl (by decide)

theorem FlightInv.deliver (hs : FlightInv img L m0 s) (hstep : s.Delivers t) :
    FlightInv img L m0 t := by
  have hseen := hstep.seen
  have hkeep (q : Store (8 * b) Origin) (hq : q ∈ t.pending) : q ∈ s.pending :=
    mem_of_deliver hstep.2 hq
  cases hs with
  | won hwon =>
      exact absurd hwon.pending (ne_nil_of_deliver hstep.2)
  | copying hcopy =>
      have hboot := hcopy.boot
      rw [← hseen, ← hstep.1] at hboot
      exact .copying ⟨hboot, by rw [hstep.1]; exact hcopy.pc, by rw [hstep.1]; exact hcopy.base,
        fun q hq => hcopy.pending q (hkeep q hq)⟩
  | running hlate hspin hpending =>
      exact .running (by rwa [hstep.1]) (by rwa [hseen]) (fun q hq => hpending q (hkeep q hq))
  | spun hstage hpending =>
      exact .spun (by rwa [hstep.1]) (fun q hq => hpending q (hkeep q hq))

/-- The image as the hart relocates it: the load address saved, both flags zero. -/
structure Image.Ready (img : Image b) (L : BitVec (8 * b)) (m0 : Memory (8 * b)) : Prop where
  loaded : img.LoadedAt L m0
  status : loadWord m0 (img.addr L .bootStatus) = 0#(8 * b)
  spin : loadWord m0 (img.addr L .spinAddr) = 0#(8 * b)

theorem Flight.Won.ready (hwon : s.Won img L) :
    img.Ready L (storeWord s.mem (img.addr L .loadStart) L) := by
  have hapart (s' : Symbol) (hs : s'.isWord = true) (hne : Symbol.loadStart ≠ s') :
      (loadWord (storeWord s.mem (img.addr L .loadStart) L) (img.addr L s') : BitVec (8 * b)) =
        loadWord s.mem (img.addr L s') :=
    loadWord_storeWord_of_disjoint _ _ _ _ img.b_le (img.words_disjoint L _ _ rfl hs hne)
  constructor
  · constructor
    · rw [hapart _ rfl (by decide), hwon.run_addr]
    · rw [hapart _ rfl (by decide), hwon.image_size]
    · rw [loadWord_storeWord_same _ _ _ img.b_le]
  · rw [hapart _ rfl (by decide), hwon.status]
  · rw [hapart _ rfl (by decide), hwon.spin]

theorem Flight.Won.move (hwon : s.Won img L) (hmove : s.Moves img t) :
    t.Copying img L (storeWord s.mem (img.addr L .loadStart) L) ∧ t.hart.pc = .relocate ∧
      t.hart.base = L ∧ t.seen = storeWord s.mem (img.addr L .loadStart) L := by
  have hpc := hwon.pc
  have haction : s.hart.action img = .store (img.addr L .loadStart) (img.addr L .start)
      { s.hart with
        t0 := img.addr L .loadStart
        t1 := img.addr L .start
        pc := .relocate } := by
    simp only [Hart.action, hpc, Hart.la, hwon.base]
  obtain rfl := hmove.of_store haction (by simp [hpc])
  have hseen : view s.mem
      (s.pending ++ [s.issued (img.addr L .loadStart) (img.addr L .start)]) =
      storeWord s.mem (img.addr L .loadStart) L := by
    rw [view_append, hwon.pending]
    simp [Flight.issued, Store.apply, storeWord, Image.addr, Image.offset]
  refine ⟨⟨?_, by simp, by simp, ?_⟩, rfl, hwon.base, hseen⟩
  · unfold Flight.seen
    rw [hseen]
    exact .reloc (.entry rfl hwon.base)
  · rw [hwon.pending, List.nil_append, List.forall_mem_singleton]
    exact Or.inr ⟨by simp [Flight.issued, hpc, Pc.origin], rfl, rfl⟩

/-- At the boot-status store the copy is delivered, so what is in flight misses the
spin word of the run copy, which holds the zero of the image. -/
theorem Flight.Copying.release (hs : s.Copying img L m0) (hready : img.Ready L m0)
    (hpc : s.hart.pc = .doneStatus) (hdelivered : ∀ q ∈ s.pending, q.label ≠ .relocation)
    (hmove : s.Moves img t) : FlightInv img L m0 t := by
  obtain ⟨ht0, hspares, hmem⟩ := hs.boot.at_status hpc
  have hstatus : Disjoint (img.addr L .bootStatus) b (img.addr img.runAddr .spinAddr) b := by
    rcases hspares with rfl | hspares
    · exact img.words_disjoint _ _ _ rfl rfl (by decide)
    · exact fun x hx hword => hspares.boot_status x (img.word_inRange _ _ _ rfl hword) hx
  have hstart : Disjoint (img.addr L .loadStart) b (img.addr img.runAddr .spinAddr) b := by
    rcases hspares with rfl | hspares
    · exact img.words_disjoint _ _ _ rfl rfl (by decide)
    · exact fun x hx hword => hspares.load_start x (img.word_inRange _ _ _ rfl hword) hx
  have haction : s.hart.action img =
      .store s.hart.t0 s.hart.t1 { s.hart with pc := .doneFence } := by
    simp only [Hart.action, hpc]
  obtain rfl := hmove.of_store haction (by simp [hpc])
  have hmiss : (s.issued s.hart.t0 s.hart.t1).Misses (img.addr img.runAddr .spinAddr) b := by
    rw [ht0]
    exact hstatus
  refine .running (.run (hs.base hpc) rfl) ?_ ?_
  · rw [Flight.seen_append]
    have hmoved := (img.relocated_move L m0).loadWord_run .spinAddr rfl
    rw [← hmem, hready.spin] at hmoved
    rw [← hmoved]
    apply loadWord_of_unchanged img.b_le
    intro x hx
    exact apply_of_misses _ _ hmiss hx
  · rw [List.forall_mem_append, List.forall_mem_singleton]
    refine ⟨?_, by simp [Flight.issued, hpc, Pc.origin], hmiss⟩
    intro q hq
    rcases hs.pending q hq with ⟨hlabel, _⟩ | ⟨_, haddr, hsize⟩
    · exact absurd hlabel (hdelivered q hq)
    · refine ⟨hdelivered q hq, ?_⟩
      unfold Store.Misses
      rw [haddr, hsize]
      exact hstart

theorem Flight.Copying.step (hs : s.Copying img L m0)
    (hplace : L ≠ img.runAddr → img.CopyOrdered L ∧ img.WordsBelow L) (hready : img.Ready L m0)
    (hstatus : s.hart.pc ≠ .doneStatus) (hmove : s.Moves img t) : t.Copying img L m0 := by
  have hmain : s.hart.pc ≠ .main := by
    rcases hs.boot.pc_cases hs.pc with hbefore | hhang
    · rintro hpc'
      simp [hpc', Pc.beforeStatus, Pc.relocating] at hbefore
    · simp [hhang]
  obtain ⟨hstep, hissue⟩ := hmove.step hmain
  have hpending : ∀ q ∈ t.pending, img.CopyStore L q := by
    rcases hissue with hsame | ⟨a, v, k, haction, hmore⟩
    · rw [hsame]
      exact hs.pending
    · intro q hq
      rw [hmore, List.mem_append, List.mem_singleton] at hq
      rcases hq with hq | rfl
      · exact hs.pending q hq
      · rcases hs.boot.issues haction with ⟨hpc', _⟩ | ⟨horigin, hne, hmiss⟩
        · exact absurd hpc' hstatus
        · exact Or.inl ⟨horigin, hne, hmiss⟩
  rcases hs.boot.pc_cases hs.pc with hbefore | hhang
  · exact ⟨hs.boot.step (fun hne => (hplace hne).1) (fun hne => (hplace hne).2) hready.loaded
      hbefore hstep, fun hpc' => hstatus ((status_of_step hstep).2 hpc'),
      hs.boot.base_of_step hstep, hpending⟩
  · simp only [Hart.step, Hart.action, hhang, Action.exec, Option.some.injEq,
      Prod.mk.injEq] at hstep
    obtain ⟨hhart, hseen⟩ := hstep
    have hboot := hs.boot
    rw [hhart, hseen] at hboot
    rw [hhart] at hhang
    exact ⟨hboot, by simp [hhang], by simp [hhang], hpending⟩

theorem FlightInv.main_move (hlate : LateAt img s.hart) (hmain : s.hart.pc = .main)
    (hspin : loadWord s.seen (img.addr img.runAddr .spinAddr) = 0#(8 * b))
    (hpending : ∀ q ∈ s.pending, q.label ≠ .relocation ∧
      q.Misses (img.addr img.runAddr .spinAddr) b) (hok : s.Orderly img t)
    (hmove : s.Moves img t) : FlightInv img L m0 t := by
  cases hmove with
  | @mainStore a n v hpc =>
      have hmiss := hok.main_misses ⟨a, n, v, .main⟩ (by simp) rfl
      refine .running hlate ?_ ?_
      · rw [Flight.seen_append, ← hspin]
        apply loadWord_of_unchanged img.b_le
        intro x hx
        exact apply_of_misses _ _ hmiss hx
      · rw [List.forall_mem_append, List.forall_mem_singleton]
        exact ⟨hpending, by simp, hmiss⟩
  | @mainReturn k h hcall hbase hpc =>
      have hrun : s.hart.base = img.runAddr := by
        cases hlate with
        | run hbase => exact hbase
        | bss hpc' => rw [hmain] at hpc'; cases hpc'
      simp only [Hart.action, hmain, Action.call.injEq] at hcall
      subst hcall
      refine .running (.run (hbase.trans hrun) ?_) hspin hpending
      rw [hpc]
      dsimp only
      split <;> rfl
  | goto haction | load haction | store haction | amoAddW haction | fence haction =>
      simp [Hart.action, hmain] at haction

theorem FlightInv.spin_move (hpc : s.hart.pc = .spinStore)
    (hpending : ∀ q ∈ s.pending, q.label ≠ .relocation)
    (hdelivered : ∀ q ∈ s.pending, q.label ≠ .main) (hmove : s.Moves img t) :
    FlightInv img L m0 t := by
  have haction : s.hart.action img =
      .store s.hart.t0 s.hart.t1 { s.hart with pc := .spinFence } := by
    simp only [Hart.action, hpc]
  obtain rfl := hmove.of_store haction (by simp [hpc])
  apply FlightInv.spun rfl
  rw [List.forall_mem_append, List.forall_mem_singleton]
  exact ⟨fun q hq => ⟨hpending q hq, hdelivered q hq⟩, by simp [Flight.issued, hpc, Pc.origin]⟩

theorem FlightInv.running_move (hlate : LateAt img s.hart)
    (hspin : loadWord s.seen (img.addr img.runAddr .spinAddr) = 0#(8 * b))
    (hpending : ∀ q ∈ s.pending, q.label ≠ .relocation ∧
      q.Misses (img.addr img.runAddr .spinAddr) b) (hok : s.Orderly img t)
    (hmove : s.Moves img t) : FlightInv img L m0 t := by
  by_cases hmain : s.hart.pc = .main
  · exact .main_move hlate hmain hspin hpending hok hmove
  · by_cases hstore : s.hart.pc = .spinStore
    · exact .spin_move hstore (fun q hq => (hpending q hq).1) (hok.spin hstore) hmove
    · obtain ⟨hstep, hissue⟩ := hmove.step hmain
      refine .running (hlate.step hstore hstep) ((hlate.spin_kept hstore hstep).trans hspin) ?_
      rcases hissue with hsame | ⟨a, v, k, haction, hmore⟩
      · rwa [hsame]
      · obtain ⟨horigin, hmiss⟩ := hlate.issues hstore haction
        rw [hmore, List.forall_mem_append, List.forall_mem_singleton]
        exact ⟨hpending, by simp [Flight.issued, horigin], hmiss⟩

theorem FlightInv.move (hs : FlightInv img L m0 s)
    (hplace : L ≠ img.runAddr → img.CopyOrdered L ∧ img.WordsBelow L)
    (hready : img.Ready L m0) (hok : s.Orderly img t) (hmove : s.Moves img t) :
    FlightInv img L m0 t := by
  cases hs with
  | won hwon hm0 =>
      rw [hm0]
      exact .copying (hwon.move hmove).1
  | copying hcopy =>
      by_cases hstatus : s.hart.pc = .doneStatus
      · exact hcopy.release hready hstatus (hok.status hstatus) hmove
      · exact .copying (hcopy.step hplace hready hstatus hmove)
  | running hlate hspin hpending => exact .running_move hlate hspin hpending hok hmove
  | spun hstage hpending =>
      have hmain : s.hart.pc ≠ .main := by
        rintro hpc
        simp [hpc, Pc.stage] at hstage
      obtain ⟨hstep, hissue⟩ := hmove.step hmain
      obtain ⟨hstage', hnone⟩ := stage_spun hstage hstep
      rcases hissue with hsame | ⟨a, v, k, haction, _⟩
      · exact .spun hstage' (by rwa [hsame])
      · exact absurd haction (hnone a v k)

theorem Flight.Copying.status_zero (hs : s.Copying img L m0)
    (hplace : L ≠ img.runAddr → img.CopyOrdered L ∧ img.WordsBelow L) (hready : img.Ready L m0) :
    s.bootStatus img L = 0#(8 * b) := by
  have hkept := hs.boot.status_kept (fun hne => (hplace hne).1) hs.pc
  rw [hready.status] at hkept
  exact (img.loadWord_mem (fun q hq => (hs.pending q hq).misses)).trans hkept

theorem FlightInv.flags_follow (hs : FlightInv img L m0 s)
    (hplace : L ≠ img.runAddr → img.CopyOrdered L ∧ img.WordsBelow L) (hready : img.Ready L m0) :
    s.FlagsFollow img L := by
  cases hs with
  | won hwon _ =>
      refine ⟨fun hne => absurd hwon.status hne, fun hseen hne => ?_⟩
      rcases hseen with heq | hset
      · have hspin := hwon.spin
        rw [heq] at hspin
        exact absurd hspin hne
      · exact absurd hwon.status hset
  | copying hcopy =>
      have hstatus : s.bootStatus img L = 0#(8 * b) := hcopy.status_zero hplace hready
      refine ⟨fun hne => absurd hstatus hne, fun hseen hne => ?_⟩
      rcases hseen with heq | hset
      · have hmiss (q : Store (8 * b) Origin) (hq : q ∈ s.pending) :
            q.Misses (img.addr img.runAddr .spinAddr) b := by
          rcases hcopy.pending q hq with ⟨_, hmoved, _⟩ | ⟨_, haddr, hsize⟩
          · exact absurd heq hmoved
          · unfold Store.Misses
            rw [haddr, hsize, heq]
            exact img.words_disjoint _ _ _ rfl rfl (by decide)
        have hspin := img.loadWord_mem hmiss
        rw [hcopy.boot.in_place heq hcopy.pc, ← heq, hready.spin, heq] at hspin
        exact absurd hspin hne
      · exact absurd hstatus hset
  | running hlate hspin hpending =>
      have hword := img.loadWord_mem (fun q hq => (hpending q hq).2)
      refine ⟨fun _ => ⟨?_, fun q hq => (hpending q hq).1⟩,
        fun _ hne => absurd (hword.trans hspin) hne⟩
      cases hlate with
      | run _ hpc =>
          cases hpc' : s.hart.pc <;> simp [hpc', Pc.late] at hpc <;> simp [Pc.stage]
      | bss hpc => simp [hpc, Pc.stage]
  | spun hstage hpending =>
      exact ⟨fun _ => ⟨by omega, fun q hq => (hpending q hq).1⟩,
        fun _ _ => ⟨by simp [Pc.mainReturned, hstage], fun q hq => (hpending q hq).2⟩⟩

end Invariant

/-- The flags of the boot hart, for every image, every delivery order and all stores
that `zstage_main` may make outside the spin word: in a run in which each flag store
finds the stores it announces delivered, no other hart sees a flag early. -/
theorem flags_follow_data (img : Image b) (L : BitVec (8 * b)) (s0 : Flight b)
    (hplace : L ≠ img.runAddr → img.CopyOrdered L ∧ img.WordsBelow L) (hwon : s0.Won img L)
    (s : Flight b) (hrun : ReflTransGen (Flight.Step img (Flight.Orderly img)) s0 s) :
    s.FlagsFollow img L := by
  have hready := hwon.ready
  have hinv : FlightInv img L (storeWord s0.mem (img.addr L .loadStart) L) s := by
    induction hrun with
    | refl => exact .won hwon rfl
    | tail _ hstep ih =>
        cases hstep with
        | move hok hmove => exact ih.move hplace hready hok hmove
        | deliver hdeliver => exact ih.deliver hdeliver
  exact hinv.flags_follow hplace hready

theorem flags_follow_data_sample :
    let img := Image.sample 8 (Or.inr rfl) 0x80000000
    let L : BitVec (8 * 8) := 0x84000000
    let s0 : Flight 8 := ⟨⟨L, .saveLoadStart, 0, 0, 0, 0, 0, 0, 0, 0, 0, 0, 0⟩,
      img.place L (fun _ => 0), []⟩
    ∀ s, ReflTransGen (Flight.Step img (Flight.Orderly img)) s0 s → s.FlagsFollow img L := by
  intro img L s0
  have hord : img.Ordered L := ⟨by decide, by decide⟩
  have hal : img.Aligned L := ⟨by decide, by decide⟩
  exact flags_follow_data img L s0 (fun _ => ⟨hord.copyOrdered, hal.wordsBelow⟩)
    ⟨rfl, rfl, rfl, by decide +kernel, by decide +kernel, by decide +kernel, by decide +kernel⟩

/-! ### A flag ahead of its data -/

section Overtaking

variable {img : Image b} {L : BitVec (8 * b)} {m0 : Memory (8 * b)} {s t : Flight b}

def Flight.Runs (img : Image b) : Flight b → Flight b → Prop :=
  ReflTransGen (Flight.Step img fun _ _ => True)

theorem Flight.Copying.exists_move (hs : s.Copying img L m0)
    (hplace : L ≠ img.runAddr → img.CopyOrdered L ∧ img.WordsBelow L) (hready : img.Ready L m0)
    (hstatus : s.hart.pc ≠ .doneStatus) {h : Hart b} {m : Memory (8 * b)}
    (hstep : Hart.step img (s.hart, s.seen) = some (h, m)) :
    ∃ t, Flight.Runs img s t ∧ t.Copying img L m0 ∧ t.hart = h ∧ t.seen = m ∧ t.mem = s.mem ∧
      ∀ q ∈ s.pending, q ∈ t.pending := by
  have hpoint : s.hart.pc ≠ .start ∧ s.hart.pc ≠ .spinFence := by
    rcases hs.boot.pc_cases hs.pc with hbefore | hhang
    · constructor <;> rintro hpc <;> simp [hpc, Pc.beforeStatus, Pc.relocating] at hbefore
    · simp [hhang]
  obtain ⟨t, hmove, hhart, hseen, hmem, hpending⟩ :=
    Flight.exists_move hstep hpoint.1 hs.pc hpoint.2
  exact ⟨t, .single (.move trivial hmove), hs.step hplace hready hstatus hmove, hhart, hseen, hmem,
    hpending⟩

theorem Flight.Copying.exists_run (hs : s.Copying img L m0)
    (hplace : L ≠ img.runAddr → img.CopyOrdered L ∧ img.WordsBelow L) (hready : img.Ready L m0)
    {u : Hart b × Memory (8 * b)} (hreach : RelocReach img (s.hart, s.seen) u) :
    ∃ t, Flight.Runs img s t ∧ t.Copying img L m0 ∧ t.hart = u.1 ∧ t.seen = u.2 ∧
      t.mem = s.mem := by
  induction hreach with
  | refl => exact ⟨s, .refl, hs, rfl, rfl, rfl⟩
  | @tail v w _ hstep ih =>
      obtain ⟨t, hrun, hcopy, hhart, hseen, hmem⟩ := ih
      obtain ⟨hrel, hstep⟩ := hstep
      have hstatus : t.hart.pc ≠ .doneStatus := by
        rintro hpc
        rw [← hhart, hpc] at hrel
        cases hrel
      have hview : (t.hart, t.seen) = v := Prod.ext hhart hseen
      rw [← hview] at hstep
      obtain ⟨t', hrun', hcopy', hhart', hseen', hmem', _⟩ :=
        hcopy.exists_move hplace hready hstatus hstep
      exact ⟨t', hrun.trans hrun', hcopy', hhart', hseen', hmem'.trans hmem⟩

/-- The last step of the relocation is a store of the copy. -/
theorem store_before_jump {h h' : Hart b} {m m' : Memory (8 * b)} {a : BitVec (8 * b)}
    (hrel : h.pc.relocating = true) (hstep : Hart.step img (h, m) = some (h', m'))
    (hjump : h'.pc = .relocateJump a) :
    h.pc.origin = .relocation ∧ ∃ c v k, h.action img = .store c v k := by
  have hbranch (k : Hart b) : (Hart.relocateBranch img k).pc ≠ .relocateJump a := by
    have htarget := (Hart.relocateBranch_target img k).2
    rintro hpc
    simp [hpc] at htarget
  cases hpc : h.pc <;> simp only [hpc, Pc.relocating, Bool.false_eq_true] at hrel <;>
    simp only [Hart.step, Hart.action, hpc, Action.exec, Option.some.injEq,
      Prod.mk.injEq] at hstep <;> obtain ⟨rfl, rfl⟩ := hstep
  case relocateLoadStart => exact absurd hjump (hbranch _)
  case copyToLowerStore | copyToUpperStore =>
      exact ⟨rfl, by simp [Hart.action, hpc]⟩
  all_goals cases hjump

theorem Flight.Copying.last_store (hs : s.Copying img L m0) (hseen : s.seen = m0)
    (hord : img.CopyOrdered L) (hal : img.Aligned L) (hne : L ≠ img.runAddr)
    (hready : img.Ready L m0)
    (hpass : img.GuardsPass L) (hbase : s.hart.base = L) (hpc : s.hart.pc = .relocate) :
    ∃ t, Flight.Runs img s t ∧ t.Copying img L m0 ∧
      t.hart.pc = .relocateJump (img.addr img.runAddr .relocateDone) ∧
      t.seen = move img.runAddr L img.size m0 ∧ ∃ q ∈ t.pending, q.label = .relocation := by
  have hplace : L ≠ img.runAddr → img.CopyOrdered L ∧ img.WordsBelow L :=
    fun _ => ⟨hord, hal.wordsBelow⟩
  obtain ⟨h, hjump, hreach⟩ := relocation_reaches_jump hord hal hne hready.loaded hpass hbase hpc
  rw [← hseen] at hreach
  obtain hsame | ⟨v, hbefore, hrel, hstep⟩ := hreach.cases_tail
  · rw [Prod.mk.injEq] at hsame
    rw [hsame.1, hpc] at hjump
    cases hjump
  · obtain ⟨u, hrun, hcopy, hhart, hseen', _⟩ := hs.exists_run hplace hready hbefore
    have hview : (u.hart, u.seen) = v := Prod.ext hhart hseen'
    rw [← hview] at hstep hrel
    obtain ⟨horigin, a, x, k, haction⟩ := store_before_jump hrel hstep hjump
    have hstatus : u.hart.pc ≠ .doneStatus := by
      rintro hpc
      simp [hpc, Pc.relocating] at hrel
    have hmove : u.Moves img { u with hart := k, pending := u.pending ++ [u.issued a x] } :=
      .store haction
    simp only [Hart.step, haction, Action.exec, Option.some.injEq, Prod.mk.injEq] at hstep
    obtain ⟨rfl, hmem⟩ := hstep
    refine ⟨_, hrun.tail (.move trivial hmove), hcopy.step hplace hready hstatus hmove, hjump, ?_,
      u.issued a x, by simp, horigin⟩
    rw [Flight.seen_append, ← hseen, ← hmem]
    rfl

theorem Flight.Copying.to_status (hs : s.Copying img L m0)
    (hplace : L ≠ img.runAddr → img.CopyOrdered L ∧ img.WordsBelow L) (hready : img.Ready L m0)
    (hjump : s.hart.pc = .relocateJump (img.addr img.runAddr .relocateDone))
    (hmem : s.seen = move img.runAddr L img.size m0) :
    ∃ t, Flight.Runs img s t ∧ t.Copying img L m0 ∧ t.hart.pc = .doneStatus ∧
      t.hart.t0 = img.addr L .bootStatus ∧ t.hart.t1 = 1 ∧ ∀ q ∈ s.pending, q ∈ t.pending := by
  have hmoved := img.relocated_move L m0
  rw [← hmem] at hmoved
  obtain ⟨h1, h2, h3, hstep, hpc1, hstep1, hpc2, hstep2, hpc3, _, ht0, ht1⟩ :=
    status_steps (L := L) hjump
      ((hmoved.loadWord_run .headerImageRunAddr rfl).trans hready.loaded.run_addr)
      ((hmoved.loadWord_run .loadStart rfl).trans hready.loaded.load_start)
  obtain ⟨s1, hrun1, hcopy1, rfl, hseen1, _, hkeep1⟩ :=
    hs.exists_move hplace hready (by simp [hjump]) hstep
  rw [← hseen1] at hstep1
  obtain ⟨s2, hrun2, hcopy2, rfl, hseen2, _, hkeep2⟩ :=
    hcopy1.exists_move hplace hready (by simp [hpc1]) hstep1
  rw [← hseen1, ← hseen2] at hstep2
  obtain ⟨s3, hrun3, hcopy3, rfl, _, _, hkeep3⟩ :=
    hcopy2.exists_move hplace hready (by simp [hpc2]) hstep2
  exact ⟨s3, hrun1.trans (hrun2.trans hrun3), hcopy3, hpc3, ht0, ht1,
    fun q hq => hkeep3 q (hkeep2 q (hkeep1 q hq))⟩

/-- The boot status can reach memory ahead of everything that is in flight. -/
theorem Flight.Copying.status_first (hs : s.Copying img L m0) (hpc : s.hart.pc = .doneStatus)
    (ht0 : s.hart.t0 = img.addr L .bootStatus) (ht1 : s.hart.t1 = 1) :
    ∃ t, Flight.Runs img s t ∧ t.bootStatus img L = 1 ∧ t.pending = s.pending := by
  let q := s.issued (img.addr L .bootStatus) 1
  let u : Flight b :=
    { s with hart := { s.hart with pc := .doneFence }, pending := s.pending ++ [q] }
  have hmove : s.Moves img u := .store (by simp [Hart.action, hpc, ht0, ht1])
  have hdeliver : u.Delivers { u with mem := q.apply s.mem, pending := s.pending ++ [] } :=
    ⟨rfl, .mk (fun p hp => (hs.pending p hp).misses)⟩
  refine ⟨_, .tail (.single (.move trivial hmove)) (.deliver hdeliver), ?_, List.append_nil _⟩
  exact loadWord_storeWord_same _ _ _ img.b_le

/-- Wherever the image is copied, some delivery order shows the boot status to the
other harts while a store of the copy is in flight. -/
theorem status_overtakes_copy (hord : img.CopyOrdered L) (hal : img.Aligned L)
    (hne : L ≠ img.runAddr) (hpass : img.GuardsPass L) (hwon : s.Won img L) :
    ∃ t, Flight.Runs img s t ∧ t.bootStatus img L = 1 ∧ ∃ q ∈ t.pending, q.label = .relocation := by
  have hready := hwon.ready
  obtain ⟨a, v, k, haction⟩ : ∃ a v k, s.hart.action img = .store a v k := by
    simp [Hart.action, hwon.pc]
  have hmove : s.Moves img { s with hart := k, pending := s.pending ++ [s.issued a v] } :=
    .store haction
  obtain ⟨hcopy, hpc, hbase, hseen⟩ := hwon.move hmove
  obtain ⟨u, hrun, hcopy', hjump, hmem, q, hq, hlabel⟩ :=
    hcopy.last_store hseen hord hal hne hready hpass hbase hpc
  obtain ⟨w, hrun', hcopy'', hstatus, ht0, ht1, hkeep⟩ :=
    hcopy'.to_status (fun _ => ⟨hord, hal.wordsBelow⟩) hready hjump hmem
  obtain ⟨t, hrun'', hset, hsame⟩ := hcopy''.status_first hstatus ht0 ht1
  refine ⟨t, .head (.move trivial hmove) (hrun.trans (hrun'.trans hrun'')), hset, q, ?_, hlabel⟩
  rw [hsame]
  exact hkeep q hq

/-- Whatever `zstage_main` stores outside the spin word, some delivery order shows the
spin word to the other harts while that store is in flight. -/
theorem spin_overtakes_main (hspin : img.noSpin = true) (hpc : s.hart.pc = .main)
    (hbase : s.hart.base = img.runAddr)
    (hpending : ∀ q ∈ s.pending, q.Misses (img.addr img.runAddr .spinAddr) b)
    (q : Store (8 * b) Origin) (hlabel : q.label = .main)
    (hmiss : q.Misses (img.addr img.runAddr .spinAddr) b) :
    ∃ t, Flight.Runs img s t ∧ q ∈ t.pending ∧
      t.spinWord img = loadWord (q.apply s.seen) (img.addr img.runAddr .headerNextRunAddr) := by
  obtain ⟨a, n, v, label⟩ := q
  obtain rfl : label = .main := hlabel
  let s1 : Flight b := { s with pending := s.pending ++ [⟨a, n, v, .main⟩] }
  let s2 : Flight b := { s1 with hart := { s.hart with pc := .spinNextRun } }
  let s3 : Flight b := { s2 with
    hart := { s.hart with
      base := img.runAddr
      pc := .spinStore
      t0 := img.addr img.runAddr .spinAddr
      t1 := loadWord s1.seen (img.addr img.runAddr .headerNextRunAddr) } }
  let q : Store (8 * b) Origin := s3.issued s3.hart.t0 s3.hart.t1
  let s4 : Flight b :=
    { s3 with hart := { s3.hart with pc := .spinFence }, pending := s3.pending ++ [q] }
  have hmove1 : s.Moves img s1 := .mainStore hpc
  have hmove2 : s1.Moves img s2 :=
    .mainReturn (by simp only [Hart.action, s1, hpc, hspin]; rfl) rfl rfl rfl rfl
  have hload : s2.hart.action img = .load (img.addr img.runAddr .headerNextRunAddr) fun v =>
      { s.hart with
        base := img.runAddr
        pc := .spinStore
        t0 := img.addr img.runAddr .spinAddr
        t1 := v } := by
    simp only [Hart.action, s2, Hart.la, hbase]
  have hmove3 : s2.Moves img s3 := .load hload
  have hmove4 : s3.Moves img s4 := .store rfl
  have hapart : ∀ p ∈ s3.pending, p.Misses q.addr q.size := by
    intro p hp
    rcases List.mem_append.mp hp with hp | hp
    · exact hpending p hp
    · rw [List.mem_singleton] at hp
      rw [hp]
      exact hmiss
  have hdeliver : s4.Delivers { s4 with mem := q.apply s.mem, pending := s3.pending ++ [] } :=
    ⟨rfl, .mk hapart⟩
  have hrun : Flight.Runs img s { s4 with mem := q.apply s.mem, pending := s3.pending ++ [] } :=
    .head (.move trivial hmove1) (.head (.move trivial hmove2) (.head (.move trivial hmove3)
      (.head (.move trivial hmove4) (.single (.deliver hdeliver)))))
  refine ⟨_, hrun, by simp [s3, s2, s1], ?_⟩
  rw [← Flight.seen_append (h := s.hart)]
  exact loadWord_storeWord_same _ _ _ img.b_le

end Overtaking

/-- A byte of a blob at `0x90000000` is still in flight when the spin word is seen set. -/
theorem spin_overtakes_main_sample :
    let img := Image.sample 8 (Or.inr rfl) 0x80000000
    let m : Memory (8 * 8) :=
      storeWord (fun _ => 0) (img.addr img.runAddr .headerNextRunAddr) (0x80200000 : BitVec (8 * 8))
    let s : Flight 8 := ⟨⟨0x80000000, .main, 0, 0, 0, 0, 0, 0, 0, 0, 0, 0, 0⟩, m, []⟩
    ∃ t, Flight.Runs img s t ∧ ⟨0x90000000, 1, 0xd0, .main⟩ ∈ t.pending ∧
      t.spinWord img = 0x80200000 := by
  intro img m s
  let q : Store (8 * 8) Origin := ⟨0x90000000, 1, 0xd0, .main⟩
  obtain ⟨t, hrun, hpending, hword⟩ : ∃ t, Flight.Runs img s t ∧ q ∈ t.pending ∧
      t.spinWord img = loadWord (q.apply s.seen) (img.addr img.runAddr .headerNextRunAddr) :=
    spin_overtakes_main rfl rfl rfl (by simp [s]) q rfl
      (disjoint_of_dist _ _ _ _ (by decide) (by decide))
  exact ⟨t, hrun, hpending, hword.trans (by decide +kernel)⟩

/-- A 64-bit image of size `0x6000` copied from `0x84000000` down to `0x80000000`: the
waiting harts can see the boot status before the copy is delivered. -/
theorem flag_overtakes_data :
    let img := Image.sample 8 (Or.inr rfl) 0x80000000
    let L : BitVec (8 * 8) := 0x84000000
    let s0 : Flight 8 := ⟨⟨L, .saveLoadStart, 0, 0, 0, 0, 0, 0, 0, 0, 0, 0, 0⟩,
      img.place L (fun _ => 0), []⟩
    s0.Won img L ∧ ∃ s, ReflTransGen (Flight.Step img fun _ _ => True) s0 s ∧
      ¬ s.FlagsFollow img L := by
  intro img L s0
  have hwon : s0.Won img L :=
    ⟨rfl, rfl, rfl, by decide +kernel, by decide +kernel, by decide +kernel, by decide +kernel⟩
  have hpass : img.GuardsPass L := img.guardsPass_of_below L (by decide) (by decide) (by decide)
  have hord : img.Ordered L := ⟨by decide, by decide⟩
  obtain ⟨s, hrun, hset, q, hq, hlabel⟩ :=
    status_overtakes_copy hord.copyOrdered ⟨by decide, by decide⟩ (by decide) hpass hwon
  refine ⟨hwon, s, hrun, ?_⟩
  intro hfollow
  exact (hfollow.status (by rw [hset]; decide)).delivered q hq hlabel

end ZStage.Head
