import ZStage.Head.BootMemory
import ZStage.Main.MainProgram

/-!
The whole boot: any number of harts run head.S over one memory, and the one that has won
the lottery runs `zstage_main` access by access in between. Every step is one of the boot
protocol, in which `zstage_main` is any sequence of stores that leaves the words of head.S
alone. In whatever order the harts take their steps, a hart that jumps into the next booting
stage finds it at its run address, its FDT where the header says, and every blob in place,
all of them as they were at power-on.
-/

namespace ZStage.Main

open ZStage.Lib.ByteMemory ZStage.Lib.CopySequence ZStage.Lib.Interleaving ZStage.Head Relation

variable {b : Nat} {ι : Type} [DecidableEq ι]

/-- The harts with their memory, and what is left of a call of `zstage_main`. -/
structure Boot (b : Nat) (ι : Type) where
  system : System b ι
  main : ι → Option (Prog (8 * b) Ending)

inductive Boot.Step (img : Image b) (env : Env b) (fuel : Nat) (s : Boot b ι) : Boot b ι → Prop
  | hart {i : ι} {h : Hart b} {m : Memory (8 * b)}
      (hstep : Hart.step img (s.system.harts i, s.system.mem) = some (h, m)) :
      Step img env fuel s ⟨s.system.set i h m, s.main⟩
  | enter {i : ι} (hpc : (s.system.harts i).pc = .main) (hmain : s.main i = none) :
      Step img env fuel s ⟨s.system, Function.update s.main i (some (zstageProg env fuel
        (s.system.harts i).a0 (s.system.harts i).a1 (s.system.harts i).a2))⟩
  | access {i : ι} {f : Memory (8 * b) → Memory (8 * b)}
      {next : Memory (8 * b) → Prog (8 * b) Ending} (hmain : s.main i = some (.access f next)) :
      Step img env fuel s ⟨s.system.set i (s.system.harts i) (f s.system.mem),
        Function.update s.main i (some (next s.system.mem))⟩
  | leave {i : ι} {k h : Hart b} (hmain : s.main i = some (.done .returned))
      (hcall : (s.system.harts i).action img = .call k) (hbase : h.base = k.base)
      (hpc : h.pc = k.pc) (hsp : h.sp = k.sp) (hid : h.mhartid = k.mhartid) :
      Step img env fuel s ⟨s.system.set i h s.system.mem, Function.update s.main i none⟩

/-- A step of the boot that the hart `i` takes. -/
inductive Boot.Turn (img : Image b) (env : Env b) (fuel : Nat) (i : ι) (s : Boot b ι) :
    Boot b ι → Prop
  | hart {h : Hart b} {m : Memory (8 * b)}
      (hstep : Hart.step img (s.system.harts i, s.system.mem) = some (h, m)) :
      Turn img env fuel i s ⟨s.system.set i h m, s.main⟩
  | enter (hpc : (s.system.harts i).pc = .main) (hmain : s.main i = none) :
      Turn img env fuel i s ⟨s.system, Function.update s.main i (some (zstageProg env fuel
        (s.system.harts i).a0 (s.system.harts i).a1 (s.system.harts i).a2))⟩
  | access {f : Memory (8 * b) → Memory (8 * b)} {next : Memory (8 * b) → Prog (8 * b) Ending}
      (hmain : s.main i = some (.access f next)) :
      Turn img env fuel i s ⟨s.system.set i (s.system.harts i) (f s.system.mem),
        Function.update s.main i (some (next s.system.mem))⟩
  | leave {k h : Hart b} (hmain : s.main i = some (.done .returned))
      (hcall : (s.system.harts i).action img = .call k) (hbase : h.base = k.base)
      (hpc : h.pc = k.pc) (hsp : h.sp = k.sp) (hid : h.mhartid = k.mhartid) :
      Turn img env fuel i s ⟨s.system.set i h s.system.mem, Function.update s.main i none⟩

theorem Boot.step_iff_turn {img : Image b} {env : Env b} {fuel : Nat} {s t : Boot b ι} :
    Boot.Step img env fuel s t ↔ ∃ i, Boot.Turn img env fuel i s t := by
  constructor
  · rintro (hstep | ⟨hpc, hmain⟩ | hmain | ⟨hmain, hcall, hbase, hpc, hsp, hid⟩)
    · exact ⟨_, .hart hstep⟩
    · exact ⟨_, .enter hpc hmain⟩
    · exact ⟨_, .access hmain⟩
    · exact ⟨_, .leave hmain hcall hbase hpc hsp hid⟩
  · rintro ⟨i, hstep | ⟨hpc, hmain⟩ | hmain | ⟨hmain, hcall, hbase, hpc, hsp, hid⟩⟩
    · exact .hart hstep
    · exact .enter hpc hmain
    · exact .access hmain
    · exact .leave hmain hcall hbase hpc hsp hid

/-- Where everything lies when the hart with the second boot argument `arg` wins the lottery:
the blob table of the run copy holds the entries `bs`, the destinations and the sources are
laid out as `zstage_main` needs them, and what the C code writes is none of what head.S
works with. -/
structure Layout (img : Image b) (L : BitVec (8 * b)) (env : Env b) (m : Memory (8 * b))
    (arg : BitVec (8 * b)) (bs : List Blob) : Prop where
  table : BlobsAt m (img.addr img.runAddr .blobTable) bs
  destinations : Destinations env m arg img.runAddr (img.addr img.runAddr .blobTable) bs
  sources : Sources env m arg img.runAddr (img.addr img.runAddr .blobTable) bs
  table_fits : img.blobTable + tableSize bs ≤ img.size
  dest_writable : ∀ c ∈ copies m arg img.runAddr bs, ∀ x, InRange c.dst c.size x →
    img.MainWrites L x
  source_apart : ∀ c ∈ copies m arg img.runAddr bs, ∀ x, InRange c.src c.size x →
    ¬ img.HeadWord L x
  env_apart : env.Apart (img.HeadWord L) (img.MainWrites L)
  consoleInit : ∀ m', Within (img.HeadWord L) m m' → env.consoleInit arg m' = env.consoleInit arg m

section Layout

variable {img : Image b} {L : BitVec (8 * b)} {env : Env b} {m : Memory (8 * b)}
  {arg : BitVec (8 * b)} {bs : List Blob}

/-- The image header and the blob table are none of the words of head.S. -/
theorem Layout.isolated (hl : Layout img L env m arg bs) (hapart : img.Apart L) :
    Isolated env (img.HeadWord L) (img.MainWrites L) m arg img.runAddr
      (img.addr img.runAddr .blobTable) bs where
  apart := hl.env_apart
  consoleInit := hl.consoleInit
  dest := hl.dest_writable
  source := hl.source_apart
  constant := by
    have hsize := img.size_lt
    have h1 := img.realStart_le
    have h2 := img.relocate_lt
    have h3 := img.relocateDone_lt
    have h4 := img.text_lt_data
    have h5 := img.data_le
    have hfits := hl.table_fits
    rintro x (hx | hx) hhead
    · have hlt : (x - img.runAddr).toNat < 256 := hx
      have hin : InRange img.runAddr img.size x := by
        unfold InRange
        omega
      rw [hapart.headWord_iff (Or.inr rfl) hin] at hhead
      unfold Image.HeadOffset at hhead
      omega
    · have hin : InRange img.runAddr img.size x := inRange_mono hfits hsize.le hx
      rw [hapart.headWord_iff (Or.inr rfl) hin] at hhead
      have hlt := (x - img.runAddr).isLt
      unfold InRange Image.addr at hx
      rw [Image.offset, offset_add _ _ _ (by omega)] at hx
      -- the table lies behind the words of `.data`
      have hbehind : img.blobTable ≤ (x - img.runAddr).toNat := by
        by_contra hlt
        rw [if_neg hlt] at hx
        omega
      have hsmall : b ≤ 8 := by
        rcases img.xlen with hb | hb <;> omega
      unfold Image.HeadOffset at hhead
      omega

end Layout

/-! ### The invariant of a run -/

/-- How far the boot hart has come, with the memory of power-on `m0`: on its way to the call of
`zstage_main`, inside the call, or behind its return. -/
inductive MainPhase (img : Image b) (L : BitVec (8 * b)) (env : Env b) (fuel : Nat)
    (m0 : Memory (8 * b)) (arg : BitVec (8 * b)) (m : Memory (8 * b)) (h : Hart b) :
    Option (Prog (8 * b) Ending) → Prop
  | before (hmem : BootMemory img L m0 arg m h) : MainPhase img L env fuel m0 arg m h none
  | calling {p : Prog (8 * b) Ending} (hpc : h.pc = .main)
      (hfollows : Prog.Follows (img.HeadWord L) (img.MainWrites L)
        (zstageProg env fuel arg img.runAddr (img.addr img.runAddr .blobTable))
        (img.relocated L m0 img.bssEnd) p m) : MainPhase img L env fuel m0 arg m h (some p)
  | after {m1 : Memory (8 * b)} (hstage : 7 ≤ h.pc.stage)
      (hret : zstageMain env fuel arg img.runAddr (img.addr img.runAddr .blobTable)
        (img.relocated L m0 img.bssEnd) = .returned m1)
      (hm : Within (img.HeadWord L) m1 m) : MainPhase img L env fuel m0 arg m h none

/-- A run in which the hart `boot` has won the lottery with the second boot argument `arg`. -/
structure BootRun (img : Image b) (L N F : BitVec (8 * b)) (env : Env b) (fuel : Nat)
    [Fintype ι] (m0 : Memory (8 * b)) (arg : BitVec (8 * b)) (boot : ι) (s : Boot b ι) :
    Prop where
  inv : BootInv img L N F boot s.system
  others : ∀ i, i ≠ boot → s.main i = none
  phase : MainPhase img L env fuel m0 arg s.system.mem (s.system.harts boot) (s.main boot)

section Run

variable {img : Image b} {L N F : BitVec (8 * b)} {env : Env b} {fuel : Nat}
  {m0 m m' : Memory (8 * b)} {arg : BitVec (8 * b)} {h h' : Hart b}

theorem MainPhase.others {p : Option (Prog (8 * b) Ending)}
    (hp : MainPhase img L env fuel m0 arg m h p) (hm : Within (img.HeadWord L) m m')
    (hkept : (loadWord m' (img.addr img.runAddr .bootArg1) : BitVec (8 * b)) =
      loadWord m (img.addr img.runAddr .bootArg1)) : MainPhase img L env fuel m0 arg m' h p := by
  cases hp with
  | before hmem => exact .before (hmem.others hm hkept)
  | calling hpc hfollows => exact .calling hpc (hfollows.others hm)
  | after hstage hret hwithin => exact .after hstage hret (hwithin.trans hm)

theorem MainPhase.hart_step {p : Option (Prog (8 * b) Ending)}
    (hp : MainPhase img L env fuel m0 arg m h p) (hs : BootAt img L N F m h)
    (hm : MemAt img L N F h.pc.stage m) (hapart : img.Apart L)
    (hord : L ≠ img.runAddr → img.CopyOrdered L)
    (htop : img.runAddr.toInt + img.bssEnd < 2 ^ (8 * b - 1))
    (hstep : Hart.step img (h, m) = some (h', m')) : MainPhase img L env fuel m0 arg m' h' p := by
  cases hp with
  | before hmem => exact .before (hmem.step hs hm hapart hord htop hstep)
  | calling hpc _ => simp [Hart.step, Hart.action, hpc, Action.exec] at hstep
  | after hstage hret hwithin =>
      have hnext := hs.step hm hapart hord hstep
      exact .after (hstage.trans hnext.stage_le) hret
        (hwithin.trans (hs.returned_step hstage hstep))

theorem MainPhase.enter (hp : MainPhase img L env fuel m0 arg m h none) (hpc : h.pc = .main)
    (hconfined : (zstageProg env fuel arg img.runAddr
      (img.addr img.runAddr .blobTable)).Confined (img.HeadWord L) (img.MainWrites L)
      (img.relocated L m0 img.bssEnd)) :
    MainPhase img L env fuel m0 arg m h (some (zstageProg env fuel h.a0 h.a1 h.a2)) := by
  cases hp with
  | before hmem =>
      cases hmem with
      | main _ ha0 ha1 ha2 hm =>
          rw [ha0, ha1, ha2]
          exact .calling hpc (.start hm hconfined)
      | loading hstage => simp [hpc, Pc.stage] at hstage
      | placed hpc' => simp [hpc] at hpc'
      | bss hpc' => simp [hpc] at hpc'
      | cleared hpc' => simp [hpc] at hpc'
  | after hstage => simp [hpc, Pc.stage] at hstage

variable [Fintype ι] {boot : ι} {s t : Boot b ι}

omit [DecidableEq ι] in
theorem BootRun.caller (hs : BootRun img L N F env fuel m0 arg boot s) {i : ι}
    {p : Prog (8 * b) Ending} (hmain : s.main i = some p) : i = boot := by
  by_contra hi
  rw [hs.others i hi] at hmain
  cases hmain

theorem BootRun.step (hs : BootRun img L N F env fuel m0 arg boot s) (hspin : img.noSpin = true)
    (hcard : Fintype.card ι < 2 ^ 32) (hapart : img.Apart L)
    (hord : L ≠ img.runAddr → img.CopyOrdered L)
    (htop : img.runAddr.toInt + img.bssEnd < 2 ^ (8 * b - 1))
    (hconfined : (zstageProg env fuel arg img.runAddr
      (img.addr img.runAddr .blobTable)).Confined (img.HeadWord L) (img.MainWrites L)
      (img.relocated L m0 img.bssEnd))
    (hstep : Boot.Step img env fuel s t) : BootRun img L N F env fuel m0 arg boot t := by
  have hkeeps {u : System b ι} (hbs : BootStep img L s.system u) : BootInv img L N F boot u :=
    (hs.inv.step hspin hcard hapart hord hbs).1
  have hothers (p : Option (Prog (8 * b) Ending)) (j : ι) (hj : j ≠ boot) :
      Function.update s.main boot p j = none :=
    (Function.update_of_ne hj p s.main).trans (hs.others j hj)
  have hphase := hs.phase
  cases hstep with
  | @hart i h m hstep =>
      refine ⟨hkeeps (.hart hstep), hs.others, ?_⟩
      rcases eq_or_ne i boot with rfl | hi
      · rw [System.set_harts_same]
        exact hphase.hart_step hs.inv.boot_at hs.inv.mem_at hapart hord htop hstep
      · rw [System.set_harts_ne _ _ _ _ _ hi.symm]
        rcases (hs.inv.losers i hi).writes hs.inv.mem_at hstep with rfl | ⟨v, rfl⟩
        · exact hphase
        · refine hphase.others (within_lottery _ _) ?_
          exact hapart.lottery_kept (Or.inr rfl) (img.word_le_size .bootArg1 rfl)
            (fun _ => img.words_apart .bootArg1 .relocateLottery rfl rfl (by decide)) v
  | @enter i hpc hmain =>
      obtain rfl := hs.inv.eq_boot (i := i) (by rw [hpc]; rfl)
      rw [hmain] at hphase
      refine ⟨hs.inv, hothers _, ?_⟩
      dsimp only
      rw [Function.update_self]
      exact hphase.enter hpc hconfined
  | @access i f next hmain =>
      obtain rfl := hs.caller hmain
      rw [hmain] at hphase
      cases hphase with
      | calling hpc hfollows =>
          obtain ⟨hnext, hwrites⟩ := hfollows.access
          refine ⟨hkeeps (.mainStore hpc hwrites), hothers _, ?_⟩
          dsimp only
          rw [Function.update_self, System.set_harts_same]
          exact .calling hpc hnext
  | @leave i k h hmain hcall hbase hpc hsp hid =>
      obtain rfl := hs.caller hmain
      rw [hmain] at hphase
      have hat := Hart.main_of_call hcall
      refine ⟨hkeeps (.mainReturn hcall hbase hpc hsp hid), hothers _, ?_⟩
      dsimp only
      rw [Function.update_self, System.set_harts_same]
      cases hphase with
      | calling _ hfollows =>
          obtain ⟨m1, hrun, hwithin⟩ := hfollows.done
          simp only [Hart.action, hat, hspin, if_true, Action.call.injEq] at hcall
          subst hcall
          refine .after (by simp [hpc, Pc.stage]) ?_ hwithin
          rw [← run_zstageProg, hrun, outcome_returned]

theorem BootRun.first {s0 : Boot b ι} (h0 : PowerOn img L N F s0.system)
    (hmain : ∀ i, s0.main i = none) (hapart : img.Apart L)
    (hstep : Boot.Step img env fuel s0 t) :
    ∃ boot, BootRun img L N F env fuel s0.system.mem (s0.system.harts boot).a1 boot t := by
  cases hstep with
  | @hart i h m hstep =>
      obtain ⟨boot, hinv, hone⟩ := h0.before.step hapart (.hart hstep)
      have hi : boot = i := by
        by_contra hne
        rw [System.set_harts_ne _ _ _ _ _ hne, h0.pc boot] at hone
        simp [Pc.stage] at hone
      subst hi
      rw [System.set_harts_same] at hone
      have hwrites : Within (img.HeadWord L) s0.system.mem m := by
        have hloser : LoserAt img L N F 1 (s0.system.harts boot) :=
          .start (h0.pc boot) (h0.base boot)
        rcases hloser.writes h0.before.mem_at hstep with rfl | ⟨v, rfl⟩
        · exact .refl _ _
        · exact within_lottery _ _
      have ha1 : h.a1 = (s0.system.harts boot).a1 := by
        apply (Hart.step_frame hstep).2 <;> simp [h0.pc boot]
      refine ⟨boot, hinv, fun j _ => hmain j, ?_⟩
      dsimp only
      rw [hmain boot, System.set_harts_same]
      exact .before (.loading (by omega) ha1 (fun x hx => hwrites x (fun hin => hx (Or.inl hin))))
  | @enter i hpc => simp [h0.pc i] at hpc
  | @access i _ _ hcall => rw [hmain i] at hcall; cases hcall
  | @leave i _ _ hcall => rw [hmain i] at hcall; cases hcall

/-- In every state but the first, some hart has won the lottery. -/
theorem BootRun.reach {s0 : Boot b ι} (h0 : PowerOn img L N F s0.system)
    (hmain : ∀ i, s0.main i = none) (hspin : img.noSpin = true)
    (hcard : Fintype.card ι < 2 ^ 32) (hapart : img.Apart L)
    (hord : L ≠ img.runAddr → img.CopyOrdered L)
    (htop : img.runAddr.toInt + img.bssEnd < 2 ^ (8 * b - 1))
    (hconfined : ∀ i, (zstageProg env fuel (s0.system.harts i).a1 img.runAddr
      (img.addr img.runAddr .blobTable)).Confined (img.HeadWord L) (img.MainWrites L)
      (img.relocated L s0.system.mem img.bssEnd))
    (hreach : ReflTransGen (Boot.Step img env fuel) s0 s) :
    s = s0 ∨
      ∃ boot, BootRun img L N F env fuel s0.system.mem (s0.system.harts boot).a1 boot s := by
  induction hreach with
  | refl => exact Or.inl rfl
  | tail _ hstep ih =>
      rcases ih with rfl | ⟨boot, hrun⟩
      · exact Or.inr (BootRun.first h0 hmain hapart hstep)
      · exact Or.inr ⟨boot, hrun.step hspin hcard hapart hord htop (hconfined boot) hstep⟩

omit [DecidableEq ι] in
/-- A hart that leaves for the next booting stage finds the boot hart behind the return of
`zstage_main`. -/
theorem BootRun.returned (hs : BootRun img L N F env fuel m0 arg boot s) {i : ι}
    {a : BitVec (8 * b)} (hgone : (s.system.harts i).pc = .nextStage a ∨
      (s.system.harts i).pc = .secondaryNextStage a) :
    ∃ m1, zstageMain env fuel arg img.runAddr (img.addr img.runAddr .blobTable)
        (img.relocated L m0 img.bssEnd) = .returned m1 ∧
      Within (img.HeadWord L) m1 s.system.mem := by
  have hstage : 8 ≤ (s.system.harts boot).pc.stage := by
    rcases eq_or_ne i boot with rfl | hi
    · rcases hgone with hpc | hpc
      · simp [hpc, Pc.stage]
      · exact absurd (Or.inr ⟨a, hpc⟩) hs.inv.boot_at.leaving.1
    · have hloser := hs.inv.losers i hi
      rcases hgone with hpc | hpc
      · have hpath := hloser.not_bootPath
        rw [hpc] at hpath
        cases hpath
      · exact hloser.leaving.1 (Or.inr ⟨a, hpc⟩)
  have hphase := hs.phase
  generalize s.main boot = p at hphase
  cases hphase with
  | before hmem =>
      exfalso
      cases hmem with
      | loading hle => omega
      | placed hpc => rcases hpc with hpc | hpc | hpc | hpc | hpc <;> simp [hpc, Pc.stage] at hstage
      | bss hpc => simp [hpc, Pc.stage] at hstage
      | cleared hpc => rcases hpc with hpc | hpc <;> simp [hpc, Pc.stage] at hstage
      | main hpc => simp [hpc, Pc.stage] at hstage
  | calling hpc => simp [hpc, Pc.stage] at hstage
  | after _ hret hwithin => exact ⟨_, hret, hwithin⟩

/-- Every hart keeps its number, and carries it on its way out of head.S. -/
def Boot.Numbered (s0 s : Boot b ι) : Prop :=
  ∀ i, (s.system.harts i).Handed ∧ (s.system.harts i).mhartid = (s0.system.harts i).mhartid

omit [Fintype ι] in
theorem Boot.Numbered.step {s0 : Boot b ι} (hs : Boot.Numbered s0 s)
    (hstep : Boot.Step img env fuel s t) : Boot.Numbered s0 t := by
  have hset (i : ι) (h : Hart b) (m : Memory (8 * b)) (hh : h.Handed)
      (hid : h.mhartid = (s.system.harts i).mhartid) (j : ι) :
      ((s.system.set i h m).harts j).Handed ∧
        ((s.system.set i h m).harts j).mhartid = (s0.system.harts j).mhartid := by
    rcases eq_or_ne j i with rfl | hj
    · rw [System.set_harts_same]
      exact ⟨hh, hid.trans (hs j).2⟩
    · rw [System.set_harts_ne _ _ _ _ _ hj]
      exact hs j
  cases hstep with
  | @hart i h m hstep => exact hset i h m ((hs i).1.step hstep) (Hart.step_frame hstep).1
  | enter => exact hs
  | @access i => exact hset i _ _ (hs i).1 rfl
  | @leave i k h _ hcall _ hpc _ hid =>
      have hat := Hart.main_of_call hcall
      simp only [Hart.action, hat, Action.call.injEq] at hcall
      subst hcall
      refine hset i h _ (fun hleaving => ?_) hid
      rw [hpc] at hleaving
      dsimp only at hleaving
      split at hleaving <;> cases hleaving

omit [Fintype ι] in
theorem Boot.Numbered.reach {s0 : Boot b ι} (h0 : PowerOn img L N F s0.system)
    (hreach : ReflTransGen (Boot.Step img env fuel) s0 s) : Boot.Numbered s0 s := by
  induction hreach with
  | refl =>
      refine fun i => ⟨fun hleaving => ?_, rfl⟩
      rw [h0.pc i] at hleaving
      cases hleaving
  | tail _ hstep ih => exact ih.step hstep

end Run

/-! ### The next booting stage -/

section NextStage

variable {img : Image b} {L N F : BitVec (8 * b)} {env : Env b} {fuel : Nat}
  {m0 m : Memory (8 * b)} {arg : BitVec (8 * b)} {bs : List Blob}

/-- What the boot owes to the next booting stage: with the FDT that the boot hart was given,
every destination holds what its source held in `m0`, and nothing else has changed but what
belongs to zStage. -/
structure HandedOver (img : Image b) (L : BitVec (8 * b)) (env : Env b) (m0 : Memory (8 * b))
    (arg : BitVec (8 * b)) (bs : List Blob) (m : Memory (8 * b)) : Prop where
  magic : fdt32 m0 arg = fdtMagic
  copied : ∀ c ∈ copies m0 arg img.runAddr bs, ∀ k, k < c.size →
    m (c.dst + BitVec.ofNat (8 * b) k) = m0 (c.src + BitVec.ofNat (8 * b) k)
  kept : ∀ x, (∀ c ∈ copies m0 arg img.runAddr bs, ¬ InRange c.dst c.size x) → ¬ env.own x →
    ¬ img.HeadWord L x → m x = m0 x

theorem Layout.handedOver (hl : Layout img L env m0 arg bs) {m1 : Memory (8 * b)}
    (hret : zstageMain env fuel arg img.runAddr (img.addr img.runAddr .blobTable) m0 =
      .returned m1) (hm : Within (img.HeadWord L) m1 m) : HandedOver img L env m0 arg bs m := by
  obtain ⟨hmagic, hperforms⟩ :=
    zstageMain_performs img.xlen hl.table hl.destinations hl.sources hret
  have hordered := hl.destinations.ordered hl.sources
  refine ⟨hmagic, ?_, ?_⟩
  · intro c hc k hk
    have hlt : k < 2 ^ (8 * b) := Nat.lt_of_lt_of_le hk (hordered.size_le c hc)
    rw [← hperforms.copied hordered c hc k hk]
    apply hm
    intro hhead
    exact hhead.not_mainWrites (hl.dest_writable c hc _ (inRange_add _ _ _ hk hlt))
  · intro x hx hown hhead
    exact (hm x hhead).trans (hperforms.frame x hown hx)

/-- The addresses in the header, as head.S reads them in the load copy and the C code in the
run copy. -/
theorem ptr_hdrField {f : HeaderField} {s : Symbol} (hoffset : img.offset s = f.offset)
    (hwidth : f.width = 8) (zeroed : Nat) :
    ptr b (hdrField (img.relocated L m0 zeroed) img.runAddr f) = loadWord m0 (img.addr L s) := by
  have hsmall : b ≤ 8 := by
    rcases img.xlen with hb | hb <;> omega
  have hlow : f.offset + 8 ≤ 256 := by
    cases f <;> simp only [HeaderField.width, HeaderField.offset] at hwidth ⊢ <;> omega
  have h1 := img.realStart_le
  have h2 := img.relocate_lt
  have h3 := img.relocateDone_lt
  have h4 := img.text_lt_data
  have h5 := img.data_le
  have h6 := img.blobTable_le
  rw [ptr, hdrField, hwidth, ofNat_loadLE _ _ hsmall, Image.addr, hoffset]
  apply loadWord_congr
  intro i hi
  rw [add_assoc, add_assoc, ← BitVec.ofNat_add]
  exact Image.relocated_below (by omega)

/-- In every state of the boot, whatever the order of the harts' steps, a hart that jumps into
the next booting stage does so at the address that the stage is copied to, with its own number
and the address that the FDT is copied to, and it finds both there, with every blob at its
destination, as they were at power-on. -/
theorem boot_hands_over [Fintype ι] (img : Image b) (L N F : BitVec (8 * b)) (env : Env b)
    (fuel : Nat) (bs : List Blob) (s0 s : Boot b ι) (h0 : PowerOn img L N F s0.system)
    (hmain : ∀ i, s0.main i = none) (hspin : img.noSpin = true)
    (hcard : Fintype.card ι < 2 ^ 32) (hapart : img.Apart L)
    (hord : L = img.runAddr ∨ img.runAddr.toInt + img.size ≤ 2 ^ (8 * b - 1))
    (htop : img.runAddr.toInt + img.bssEnd < 2 ^ (8 * b - 1))
    (hlayout : ∀ i, Layout img L env (img.relocated L s0.system.mem img.bssEnd)
      (s0.system.harts i).a1 bs)
    (hreach : ReflTransGen (Boot.Step img env fuel) s0 s) (i : ι) (a : BitVec (8 * b))
    (hgone : (s.system.harts i).pc = .nextStage a ∨
      (s.system.harts i).pc = .secondaryNextStage a) :
    ∃ boot : ι,
      let m0 := img.relocated L s0.system.mem img.bssEnd
      let arg := (s0.system.harts boot).a1
      a = (nextCopy m0 img.runAddr).dst ∧
        (s.system.harts i).a0 = (s0.system.harts i).mhartid ∧
        (s.system.harts i).a1 = (fdtCopy m0 arg img.runAddr).dst ∧
        HandedOver img L env m0 arg bs s.system.mem := by
  have hord' (hne : L ≠ img.runAddr) : img.CopyOrdered L :=
    Image.copyOrdered_of_disjoint (hord.resolve_left hne) (hapart.resolve_left hne)
  have hconfined (j : ι) : (zstageProg env fuel (s0.system.harts j).a1 img.runAddr
      (img.addr img.runAddr .blobTable)).Confined (img.HeadWord L) (img.MainWrites L)
      (img.relocated L s0.system.mem img.bssEnd) :=
    zstageProg_confined img.xlen fuel (hlayout j).table (hlayout j).destinations
      (hlayout j).sources ((hlayout j).isolated hapart)
  obtain ⟨hhanded, hid⟩ := Boot.Numbered.reach h0 hreach i
  rcases BootRun.reach h0 hmain hspin hcard hapart hord' htop hconfined hreach with
    rfl | ⟨boot, hrun⟩
  · simp [h0.pc i] at hgone
  · obtain ⟨haddr, hfdt⟩ := hrun.inv.safe.next_stage i a hgone
    obtain ⟨m1, hret, hwithin⟩ := hrun.returned hgone
    refine ⟨boot, ?_, ?_, ?_, (hlayout boot).handedOver hret hwithin⟩
    · rw [haddr, ← h0.next_run]
      exact (ptr_hdrField rfl rfl _).symm
    · rw [← hid]
      exact hhanded (by rcases hgone with hpc | hpc <;> rw [hpc] <;> rfl)
    · rw [hfdt, ← h0.next_fdt]
      exact (ptr_hdrField rfl rfl _).symm

end NextStage

/-! ### A boot that can be evaluated -/

/-- The next step of one hart; a call of `zstage_main` gives the registers back. -/
def Boot.next (img : Image b) (env : Env b) (fuel : Nat) (s : Boot b ι) (i : ι) :
    Option (Boot b ι) :=
  match s.main i with
  | some (.access f next) =>
    some ⟨s.system.set i (s.system.harts i) (f s.system.mem),
      Function.update s.main i (some (next s.system.mem))⟩
  | some (.done .returned) =>
    match (s.system.harts i).action img with
    | .call k => some ⟨s.system.set i k s.system.mem, Function.update s.main i none⟩
    | _ => none
  | some (.done _) => none
  | none =>
    if (s.system.harts i).pc = .main then
      some ⟨s.system, Function.update s.main i (some (zstageProg env fuel
        (s.system.harts i).a0 (s.system.harts i).a1 (s.system.harts i).a2))⟩
    else
      (Hart.step img (s.system.harts i, s.system.mem)).map fun t => ⟨s.system.set i t.1 t.2, s.main⟩

/-- The harts of a schedule step one after the other. -/
def Boot.run (img : Image b) (env : Env b) (fuel : Nat) : List ι → Boot b ι → Option (Boot b ι)
  | [], s => some s
  | i :: is, s => (s.next img env fuel i).bind (Boot.run img env fuel is)

theorem Boot.next_turn {img : Image b} {env : Env b} {fuel : Nat} {s t : Boot b ι} {i : ι}
    (hnext : s.next img env fuel i = some t) : Boot.Turn img env fuel i s t := by
  unfold Boot.next at hnext
  split at hnext
  · rename_i hmain
    cases hnext
    exact .access hmain
  · rename_i hmain
    split at hnext
    · rename_i hcall
      cases hnext
      exact .leave hmain hcall rfl rfl rfl rfl
    · cases hnext
  · cases hnext
  · rename_i hmain
    split at hnext
    · rename_i hpc
      cases hnext
      exact .enter hpc hmain
    · obtain ⟨u, hstep, rfl⟩ := Option.map_eq_some_iff.mp hnext
      exact .hart hstep

theorem Boot.run_reach {img : Image b} {env : Env b} {fuel : Nat} (is : List ι)
    {s t : Boot b ι} (hrun : Boot.run img env fuel is s = some t) :
    ReflTransGen (Boot.Step img env fuel) s t := by
  induction is generalizing s with
  | nil =>
      cases hrun
      exact .refl
  | cons i is ih =>
      obtain ⟨u, hnext, hrest⟩ := Option.bind_eq_some_iff.mp hrun
      exact .head (Boot.step_iff_turn.mpr ⟨i, Boot.next_turn hnext⟩) (ih hrest)

def sampleImage : Image 8 :=
  { Image.sample 8 (Or.inr rfl) 0x10000 with
    size := 0x4208
    bssEnd := 0x4208
    bssEnd_aligned := by decide
    bss_lt := by decide
    bss_le := by decide
    size_aligned := by decide
    size_lt := by decide }

/-- The image loaded at `L`, over a memory in which the next stage lies at `0x5000`, the FDT
at `0x3000` and one blob at `0xa000`. -/
def sampleLoaded (L : BitVec (8 * 8)) : Memory (8 * 8) :=
  let word (n : Nat) (m : Memory (8 * 8)) (a : BitVec (8 * 8)) (v : Nat) := storeLE m a n v
  let m := word 4 (fun x => if x.toNat < 0x10000 then 0x13 else 0) (L + 4) imageMagic
  let m := word 4 m (L + 8) imageVersion
  let m := word 8 m (L + 0x10) 0x10000
  let m := word 8 m (L + 0x18) 0x4208
  let m := word 8 m (L + 0x48) 0x5000
  let m := word 8 m (L + 0x50) 0x6000
  let m := word 8 m (L + 0x58) 0x4000
  let m := word 8 m (L + 0x60) 4
  let m := word 8 m (L + 0x4100) 0xa000
  let m := word 8 m (L + 0x4108) 0xb000
  let m := word 8 m (L + 0x4110) 2
  -- the FDT header, with its bytes the other way round
  let m := word 4 m 0x3000 0xedfe0dd0
  word 4 m 0x3004 0x08000000

/-- zStage's data is the word of bss, and its console device lies at `0x9000`. -/
def sampleBootEnv : Env 8 where
  code := fun _ => False
  data := InRange 0x14200 8
  device := InRange 0x9000 8
  touch := fun c m =>
    match c with
    | .consoleInit _ => storeLE m 0x14200 8 0x9000
    | .printf _ _ => storeLE m 0x9000 8 0x7a
    | _ => m
  consoleInit := fun _ _ => 0
  banner := []
  touch_within := by
    intro c m x hx
    simp only [not_or] at hx
    cases c with
    | consoleInit => exact storeLE_of_not_inRange _ _ _ _ _ hx.1
    | printf => exact storeLE_of_not_inRange _ _ _ _ _ hx.2
    | platformEarlyInit | memcpy | platformPrepareFdt | platformFinalInit => rfl

/-- Two harts in front of `_start`, with the address of the FDT in `a1`. -/
def sampleBoot (L : BitVec (8 * 8)) : Boot 8 (Fin 2) where
  system :=
    { mem := sampleLoaded L
      harts := fun i => ⟨L, .start, 0, 0, 0, 0, 0, 0, 0, BitVec.ofNat _ i.val, 0x3000, 0,
        BitVec.ofNat _ i.val⟩ }
  main := fun _ => none

/-- The memory in which the boot hart of the sample calls `zstage_main`. -/
def sampleRelocated (L : BitVec (8 * 8)) : Memory (8 * 8) :=
  sampleImage.relocated L (sampleLoaded L) sampleImage.bssEnd

/-- Where the image of the sample is loaded: where it runs, or 64 KiB above. -/
def SamplePlace (L : BitVec (8 * 8)) : Prop := L = 0x10000 ∨ L = 0x20000

def sampleBlobs : List Blob := [⟨0xa000, 0xb000, 2⟩]

def sampleBootCopies : List (Copy (8 * 8)) :=
  [⟨0xb000, 0xa000, 2⟩, ⟨0x4000, 0x3000, 8⟩, ⟨0x6000, 0x5000, 4⟩]

section Sample

variable {L : BitVec (8 * 8)}

theorem copies_sampleBoot (hL : SamplePlace L) :
    copies (sampleRelocated L) 0x3000 sampleImage.runAddr sampleBlobs = sampleBootCopies := by
  rcases hL with rfl | rfl <;> decide +kernel

/-- A range that the copies of the sample keep clear of on one side. -/
theorem sampleBoot_clear (side : Copy (8 * 8) → BitVec (8 * 8)) {a : BitVec (8 * 8)} {n : Nat}
    (hclear : ∀ c ∈ sampleBootCopies, c.size ≤ (a - side c).toNat ∧
      (a - side c).toNat + n ≤ 2 ^ (8 * 8)) (c : Copy (8 * 8)) (hc : c ∈ sampleBootCopies)
    (x : BitVec (8 * 8)) (hx : InRange (side c) c.size x) : ¬ InRange a n x :=
  disjoint_of_dist (side c) a c.size n (hclear c hc).1 (hclear c hc).2 x hx

theorem sampleBoot_destinations (hL : SamplePlace L) :
    Destinations sampleBootEnv (sampleRelocated L) 0x3000 sampleImage.runAddr
      (sampleImage.addr sampleImage.runAddr .blobTable) sampleBlobs := by
  have hfar {c d : Copy (8 * 8)} {a : BitVec (8 * 8)} (h : c.size ≤ (a - c.dst).toNat ∧
      (a - c.dst).toNat + d.size ≤ 2 ^ (8 * 8)) : Disjoint c.dst c.size a d.size :=
    disjoint_of_dist _ _ _ _ h.1 h.2
  constructor
  · rw [copies_sampleBoot hL]
    exact List.Pairwise.imp hfar (by decide)
  · rw [copies_sampleBoot hL]
    exact List.Pairwise.imp hfar (by decide)
  · rw [copies_sampleBoot hL]
    have hsource : ∀ c ∈ sampleBootCopies, c.size ≤ (c.src - c.dst).toNat ∧
        (c.src - c.dst).toNat + c.size ≤ 2 ^ (8 * 8) := by
      decide
    exact fun c hc => Or.inl (hfar (d := c) (hsource c hc))
  · rw [copies_sampleBoot hL]
    intro c hc x hx
    exact ⟨id, sampleBoot_clear Copy.dst (by decide) c hc x hx,
      sampleBoot_clear Copy.dst (by decide) c hc x hx,
      sampleBoot_clear Copy.dst (by decide) c hc x hx⟩

theorem sampleBoot_sources (hL : SamplePlace L) :
    Sources sampleBootEnv (sampleRelocated L) 0x3000 sampleImage.runAddr
      (sampleImage.addr sampleImage.runAddr .blobTable) sampleBlobs := by
  constructor
  · rw [copies_sampleBoot hL]
    intro c hc x hx hown
    exact hown.elim (sampleBoot_clear Copy.src (by decide) c hc x hx)
      (sampleBoot_clear Copy.src (by decide) c hc x hx)
  · rw [copies_sampleBoot hL]
    exact sampleBoot_clear Copy.dst (by decide)
  · rw [copies_sampleBoot hL]
    decide
  · have hfar (a : BitVec (8 * 8)) (n k : Nat) (c : BitVec (8 * 8)) (hn : n ≤ (c - a).toNat)
        (hk : (c - a).toNat + k ≤ 2 ^ 64) (x : BitVec (8 * 8)) (hx : InRange a n x) :
        ¬ InRange c k x := disjoint_of_dist a c n k hn hk x hx
    rintro x (hx | hx) (hown | hown)
    · exact hfar _ _ _ _ (by decide) (by decide) x hx hown
    · exact hfar _ _ _ _ (by decide) (by decide) x hx hown
    · exact hfar _ _ _ _ (by decide) (by decide) x hx hown
    · exact hfar _ _ _ _ (by decide) (by decide) x hx hown
  · rcases hL with rfl | rfl <;> decide +kernel

/-- Bytes outside both copies, and bytes of bss, may be written by the C code. -/
theorem sampleBoot_writes {x : BitVec (8 * 8)} (hload : L ≠ 0x10000 → ¬ InRange L 0x4208 x)
    (hx : ¬ InRange sampleImage.runAddr sampleImage.size x ∨ InRange 0x14200 8 x) :
    sampleImage.MainWrites L x := by
  refine ⟨fun hin => ?_, hload⟩
  rcases hx with hout | hbss
  · exact absurd hin hout
  · have hword : (0x14200 : BitVec (8 * 8)) = sampleImage.runAddr + BitVec.ofNat (8 * 8) 0x4200 :=
      by decide
    unfold InRange at hbss
    rw [hword, offset_add _ _ _ (by decide)] at hbss
    have hlt := (x - sampleImage.runAddr).isLt
    have hoffset : 0x4200 ≤ (x - sampleImage.runAddr).toNat := by
      by_contra hle
      rw [if_neg hle] at hbss
      omega
    exact ⟨Nat.lt_of_lt_of_le (by decide) hoffset, Or.inr (Nat.le_trans (by decide) hoffset)⟩

theorem sampleBoot_layout (hL : SamplePlace L) :
    Layout sampleImage L sampleBootEnv (sampleRelocated L) 0x3000 sampleBlobs where
  table := by
    have hend : (readBlob (sampleRelocated L) (sampleImage.addr sampleImage.runAddr .blobTable +
        BitVec.ofNat (8 * 8) blobSize)).size = 0 := by
      rcases hL with rfl | rfl <;> decide +kernel
    have hblob : readBlob (sampleRelocated L) (sampleImage.addr sampleImage.runAddr .blobTable) =
        ⟨0xa000, 0xb000, 2⟩ := by
      rcases hL with rfl | rfl <;> decide +kernel
    exact ⟨hblob, by decide, hend⟩
  destinations := sampleBoot_destinations hL
  sources := sampleBoot_sources hL
  table_fits := by decide
  dest_writable := by
    rw [copies_sampleBoot hL]
    refine fun c hc x hx => sampleBoot_writes (fun _ => ?_)
      (Or.inl (sampleBoot_clear Copy.dst (by decide) c hc x hx))
    refine sampleBoot_clear Copy.dst ?_ c hc x hx
    rcases hL with rfl | rfl <;> decide
  source_apart := by
    rw [copies_sampleBoot hL]
    rintro c hc x hx ⟨base, hbase, hin, _⟩
    refine sampleBoot_clear Copy.src ?_ c hc x hx hin
    rcases hbase with rfl | rfl
    · rcases hL with rfl | rfl <;> decide
    · decide
  env_apart :=
    { touch := by
        intro c m m' hm x hx
        cases c with
        | consoleInit | printf =>
            simp only [sampleBootEnv, storeLE]
            rw [hm x hx]
        | platformEarlyInit | memcpy | platformPrepareFdt | platformFinalInit => exact hm x hx
      own_le := by
        rintro x (hx | hx)
        · refine sampleBoot_writes (fun hne => ?_) (Or.inr hx)
          rw [hL.resolve_left hne]
          exact disjoint_of_dist 0x14200 _ 8 _ (by decide) (by decide) x hx
        · refine sampleBoot_writes (fun _ => ?_) (Or.inl ?_)
          · rcases hL with rfl | rfl <;>
              exact disjoint_of_dist 0x9000 _ 8 _ (by decide) (by decide) x hx
          · exact disjoint_of_dist 0x9000 _ 8 _ (by decide) (by decide) x hx }
  consoleInit := fun _ _ => rfl

theorem sampleBoot_powerOn (hL : SamplePlace L) :
    PowerOn sampleImage L 0x6000 0x4000 (sampleBoot L).system := by
  constructor
  case pc | base => exact fun _ => rfl
  all_goals rcases hL with rfl | rfl <;> decide +kernel

theorem sampleBoot_apart (hL : SamplePlace L) : sampleImage.Apart L := by
  rcases hL with rfl | rfl
  · exact Or.inl rfl
  · exact Or.inr (disjoint_of_dist _ _ _ _ (by decide) (by decide))

end Sample

/-- Loaded where it runs, the first hart boots and the second one follows it; both find the next
stage. Loaded above, so that it relocates, every hart that leaves finds it as well. -/
theorem boot_hands_over_sample :
    (∃ s, ReflTransGen (Boot.Step sampleImage sampleBootEnv 2) (sampleBoot 0x10000) s ∧
      (s.system.harts 0).pc = .nextStage 0x6000 ∧
      (s.system.harts 1).pc = .secondaryNextStage 0x6000 ∧
      (s.system.harts 1).a0 = 1 ∧
      HandedOver sampleImage 0x10000 sampleBootEnv (sampleRelocated 0x10000) 0x3000 sampleBlobs
        s.system.mem) ∧
    ∀ s, ReflTransGen (Boot.Step sampleImage sampleBootEnv 2) (sampleBoot 0x20000) s →
      ∀ i a, (s.system.harts i).pc = .nextStage a ∨ (s.system.harts i).pc = .secondaryNextStage a →
        (s.system.harts i).a0 = BitVec.ofNat _ i.val ∧
        HandedOver sampleImage 0x20000 sampleBootEnv (sampleRelocated 0x20000) 0x3000 sampleBlobs
          s.system.mem := by
  constructor
  · let schedule : List (Fin 2) := List.replicate 79 0 ++ List.replicate 4 1
    have hrun : ((Boot.run sampleImage sampleBootEnv 2 schedule (sampleBoot 0x10000)).any fun s =>
        decide ((s.system.harts 0).pc = .nextStage 0x6000 ∧
          (s.system.harts 1).pc = .secondaryNextStage 0x6000)) = true := by
      decide +kernel
    cases hs : Boot.run sampleImage sampleBootEnv 2 schedule (sampleBoot 0x10000) with
    | none =>
        rw [hs] at hrun
        cases hrun
    | some s =>
        simp only [hs, Option.any_some, decide_eq_true_eq] at hrun
        have hreach := Boot.run_reach schedule hs
        have hL : SamplePlace 0x10000 := Or.inl rfl
        obtain ⟨_, _, hid, _, hover⟩ := boot_hands_over sampleImage 0x10000 0x6000 0x4000
          sampleBootEnv 2 sampleBlobs (sampleBoot 0x10000) s (sampleBoot_powerOn hL)
          (fun _ => rfl) rfl (by decide) (sampleBoot_apart hL) (Or.inl rfl)
          (by decide) (fun _ => sampleBoot_layout hL) hreach 1 0x6000 (Or.inr hrun.2)
        exact ⟨s, hreach, hrun.1, hrun.2, hid, hover⟩
  · intro s hreach i a hgone
    have hL : SamplePlace 0x20000 := Or.inr rfl
    obtain ⟨_, _, hid, _, hover⟩ := boot_hands_over sampleImage 0x20000 0x6000 0x4000
      sampleBootEnv 2 sampleBlobs (sampleBoot 0x20000) s (sampleBoot_powerOn hL)
      (fun _ => rfl) rfl (by decide) (sampleBoot_apart hL)
      (Or.inr (by decide))
      (by decide) (fun _ => sampleBoot_layout hL) hreach i a hgone
    exact ⟨hid, hover⟩

end ZStage.Main
