import ZStage.Lib.FairRuns
import ZStage.Head.BootProgress
import ZStage.Main.BootHandover

/-!
The boot comes to its end. In a run that passes no hart over for ever, with a `zstage_main`
that returns in the memory it is called in, every hart jumps into the next booting stage: the
boot hart comes to the call, the call to its return, the boot hart to the jump, and with the
flags that it has set the other harts follow.
-/

namespace ZStage.Main

open ZStage.Lib.ByteMemory ZStage.Lib.CopySequence ZStage.Lib.Interleaving ZStage.Lib.FairRuns
  ZStage.Head Relation

variable {b : Nat} {ι : Type} [DecidableEq ι]

section Turns

variable {img : Image b} {env : Env b} {fuel : Nat} {i j : ι} {s t : Boot b ι}

/-- A turn of one hart leaves the others where they are. -/
theorem Boot.Turn.others (hturn : Boot.Turn img env fuel i s t) (hj : j ≠ i) :
    t.system.harts j = s.system.harts j ∧ t.main j = s.main j := by
  cases hturn with
  | hart => exact ⟨System.set_harts_ne _ _ _ _ _ hj, rfl⟩
  | enter => exact ⟨rfl, Function.update_of_ne hj _ _⟩
  | access | leave => exact ⟨System.set_harts_ne _ _ _ _ _ hj, Function.update_of_ne hj _ _⟩

theorem Boot.Turn.gone {a : BitVec (8 * b)} (hturn : Boot.Turn img env fuel i s t)
    (hgone : (s.system.harts j).pc = .nextStage a ∨
      (s.system.harts j).pc = .secondaryNextStage a) :
    (t.system.harts j).pc = (s.system.harts j).pc := by
  rcases eq_or_ne j i with rfl | hj
  · cases hturn with
    | hart hstep =>
        rcases hgone with hpc | hpc <;> simp [Hart.step, Hart.action, hpc, Action.exec] at hstep
    | enter => rfl
    | access => rw [System.set_harts_same]
    | leave _ hcall =>
        have hat := Hart.main_of_call hcall
        rcases hgone with hpc | hpc <;> rw [hpc] at hat <;> cases hat
  · rw [(hturn.others hj).1]

end Turns

/-- A run on its way, with what the waiting harts are told. -/
structure Underway (img : Image b) (L N F : BitVec (8 * b)) (env : Env b) (fuel : Nat)
    [Fintype ι] (m0 : Memory (8 * b)) (arg : BitVec (8 * b)) (boot : ι) (s : Boot b ι) :
    Prop where
  run : BootRun img L N F env fuel m0 arg boot s
  status : StatusAt img L s.system.mem (s.system.harts boot)

section Progress

variable [Fintype ι] {img : Image b} {L N F : BitVec (8 * b)} {env : Env b} {fuel : Nat}
  {m0 : Memory (8 * b)} {arg : BitVec (8 * b)} {boot i : ι} {s t : Boot b ι}

theorem Underway.step (hs : Underway img L N F env fuel m0 arg boot s)
    (hspin : img.noSpin = true) (hcard : Fintype.card ι < 2 ^ 32) (hapart : img.Apart L)
    (hord : L ≠ img.runAddr → img.CopyOrdered L)
    (htop : img.runAddr.toInt + img.bssEnd < 2 ^ (8 * b - 1))
    (hconfined : (zstageProg env fuel arg img.runAddr
      (img.addr img.runAddr .blobTable)).Confined (img.HeadWord L) (img.MainWrites L)
      (img.relocated L m0 img.bssEnd))
    (hturn : Boot.Turn img env fuel i s t) : Underway img L N F env fuel m0 arg boot t := by
  have hmoves : Boot.Step img env fuel s t := Boot.step_iff_turn.mpr ⟨i, hturn⟩
  refine ⟨hs.run.step hspin hcard hapart hord htop hconfined hmoves, ?_⟩
  have hinv := hs.run.inv
  cases hturn with
  | @hart h m hstep =>
      rcases eq_or_ne i boot with rfl | hi
      · dsimp only
        rw [System.set_harts_same]
        exact hs.status.step hinv.boot_at hapart hstep
      · dsimp only
        rw [System.set_harts_ne _ _ _ _ _ hi.symm]
        rcases (hinv.losers i hi).writes hinv.mem_at hstep with rfl | ⟨v, rfl⟩
        · exact hs.status
        · apply hs.status.of_kept
          exact hapart.lottery_kept (Or.inl rfl) (img.word_le_size .bootStatus rfl)
            (fun _ => img.words_apart .bootStatus .relocateLottery rfl rfl (by decide)) v
  | enter => exact hs.status
  | @access f next hmain =>
      obtain rfl := hs.run.caller hmain
      have hphase := hs.run.phase
      rw [hmain] at hphase
      dsimp only
      rw [System.set_harts_same]
      cases hphase with
      | calling _ hfollows =>
          apply hs.status.of_kept
          apply loadWord_of_unchanged img.b_le
          intro x hx
          apply hfollows.access.2
          exact (Image.headWord_of_written (Or.inl rfl) rfl hx).not_mainWrites
  | @leave k h hmain hcall hbase hpc hsp hid =>
      obtain rfl := hs.run.caller hmain
      have hat := Hart.main_of_call hcall
      simp only [Hart.action, hat, hspin, if_true, Action.call.injEq] at hcall
      subst hcall
      dsimp only at hpc ⊢
      rw [System.set_harts_same]
      exact ⟨fun hstatus => by simp [hpc] at hstatus,
        fun _ => hs.status.set (by simp [hat, Pc.stage])⟩

/-! ### The boot hart -/

/-- On the way to the call of `zstage_main`. -/
def Before (img : Image b) (L N F : BitVec (8 * b)) (env : Env b) (fuel : Nat)
    (m0 : Memory (8 * b)) (arg : BitVec (8 * b)) (boot : ι) (s : Boot b ι) : Prop :=
  Underway img L N F env fuel m0 arg boot s ∧ s.main boot = none ∧
    ((s.system.harts boot).pc = .main ∨ (s.system.harts boot).pc.beforeMain = true)

def Calling (img : Image b) (L N F : BitVec (8 * b)) (env : Env b) (fuel : Nat)
    (m0 : Memory (8 * b)) (arg : BitVec (8 * b)) (boot : ι) (s : Boot b ι) : Prop :=
  Underway img L N F env fuel m0 arg boot s ∧ ∃ p, s.main boot = some p

def Returned (img : Image b) (L N F : BitVec (8 * b)) (env : Env b) (fuel : Nat)
    (m0 : Memory (8 * b)) (arg : BitVec (8 * b)) (boot : ι) (s : Boot b ι) : Prop :=
  Underway img L N F env fuel m0 arg boot s ∧ s.main boot = none ∧
    7 ≤ (s.system.harts boot).pc.stage ∧ (s.system.harts boot).pc ≠ .nextStage N

def BootGone (img : Image b) (L N F : BitVec (8 * b)) (env : Env b) (fuel : Nat)
    (m0 : Memory (8 * b)) (arg : BitVec (8 * b)) (boot : ι) (s : Boot b ι) : Prop :=
  Underway img L N F env fuel m0 arg boot s ∧ (s.system.harts boot).pc = .nextStage N

end Progress

section LeadsTo

variable [Fintype ι] {img : Image b} {L N F : BitVec (8 * b)} {env : Env b} {fuel : Nat}
  {m0 : Memory (8 * b)} {arg : BitVec (8 * b)} {boot i : ι} {r : Nat → Boot b ι}
  (hr : FairRun (Boot.Turn img env fuel) r)
  (hkeeps : ∀ i s t, Underway img L N F env fuel m0 arg boot s → Boot.Turn img env fuel i s t →
    Underway img L N F env fuel m0 arg boot t)

include hr hkeeps

theorem before_leadsTo_calling (hapart : img.Apart L) (hord : L ≠ img.runAddr → img.CopyOrdered L) :
    LeadsTo r (Before img L N F env fuel m0 arg boot)
      (Calling img L N F env fuel m0 arg boot) := by
  refine hr.leadsTo Nat.lt_wfRel.wf (fun s => (s.system.harts boot).toMain) boot ?_ ?_ ?_
  · rintro s ⟨_, hmain, hpc | hbefore⟩
    · exact ⟨_, .enter hpc hmain⟩
    · have hpoint (pc : Pc b) (hpc : (s.system.harts boot).pc = pc) : pc.beforeMain = true :=
        hpc ▸ hbefore
      obtain ⟨h, m, hstep⟩ := Hart.step_exists img s.system.mem (h := s.system.harts boot)
        (fun hpc => absurd (hpoint _ hpc) (by simp [Pc.beforeMain]))
        (fun a => ⟨fun hpc => absurd (hpoint _ hpc) (by simp [Pc.beforeMain, Pc.stage]),
          fun hpc => absurd (hpoint _ hpc) (by simp [Pc.beforeMain, Pc.stage]),
          fun hpc => absurd (hpoint _ hpc) (by simp [Pc.beforeMain, Pc.stage])⟩)
      exact ⟨_, .hart hstep⟩
  · rintro s t ⟨hs, hmain, hpc⟩ hturn
    have ht := hkeeps _ _ _ hs hturn
    cases hturn with
    | @hart h m hstep =>
        have hbefore : (s.system.harts boot).pc.beforeMain = true := by
          apply hpc.resolve_left
          intro hpc
          simp [Hart.step, Hart.action, hpc, Action.exec] at hstep
        have hinv := hs.run.inv
        obtain ⟨hpc', hless⟩ :=
          hinv.boot_at.toMain_step hinv.mem_at hapart hord hbefore hstep
        have hsame := s.system.set_harts_same boot h m
        exact Or.inr ⟨⟨ht, hmain, by rw [hsame]; exact hpc'⟩, by rw [hsame]; exact hless⟩
    | enter => exact Or.inl ⟨ht, _, Function.update_self _ _ _⟩
    | access hcall | leave hcall => rw [hmain] at hcall; cases hcall
  · rintro j s t hj ⟨hs, hmain, hpc⟩ hturn
    obtain ⟨hsame, hcall⟩ := hturn.others hj.symm
    exact Or.inr ⟨⟨hkeeps _ _ _ hs hturn, hcall.trans hmain, hsame ▸ hpc⟩, by rw [hsame]⟩

/-- The call comes to its end, as the one that has its memory for itself. -/
theorem calling_leadsTo_returned (hspin : img.noSpin = true)
    (hreturns : ∃ m, zstageMain env fuel arg img.runAddr (img.addr img.runAddr .blobTable)
      (img.relocated L m0 img.bssEnd) = .returned m) :
    LeadsTo r (Calling img L N F env fuel m0 arg boot)
      (Returned img L N F env fuel m0 arg boot) := by
  have hcalled (s : Boot b ι) (p : Prog (8 * b) Ending)
      (hs : Underway img L N F env fuel m0 arg boot s) (hmain : s.main boot = some p) :
      (s.system.harts boot).pc = .main ∧ ∀ e, p = .done e → e = .returned := by
    have hphase := hs.run.phase
    rw [hmain] at hphase
    cases hphase with
    | calling hpc hfollows =>
        refine ⟨hpc, ?_⟩
        rintro e rfl
        obtain ⟨m1, hrun, _⟩ := hfollows.done
        obtain ⟨m, hm⟩ := hreturns
        rw [← run_zstageProg, hrun] at hm
        cases e with
        | returned => rfl
        | hang => cases hm
        | running => cases hm
  refine hr.leadsTo Prog.rest_wf (fun s => (s.main boot).getD (.done .hang)) boot ?_ ?_ ?_
  · rintro s ⟨hs, p, hmain⟩
    obtain ⟨hpc, hend⟩ := hcalled s p hs hmain
    cases p with
    | access => exact ⟨_, .access hmain⟩
    | done e =>
        rw [hend e rfl] at hmain
        have hcall : (s.system.harts boot).action img =
            .call { s.system.harts boot with pc := .spinNextRun } := by
          simp only [Hart.action, hpc, hspin, if_true]
        exact ⟨_, .leave hmain hcall rfl rfl rfl rfl⟩
  · rintro s t ⟨hs, p, hmain⟩ hturn
    have ht := hkeeps _ _ _ hs hturn
    obtain ⟨hpc, _⟩ := hcalled s p hs hmain
    cases hturn with
    | hart hstep => simp [Hart.step, Hart.action, hpc, Action.exec] at hstep
    | enter _ hnone => rw [hmain] at hnone; cases hnone
    | @access f next hcall =>
        refine Or.inr ⟨⟨ht, _, Function.update_self _ _ _⟩, f, next, s.system.mem, ?_, ?_⟩
        · rw [hcall]
          rfl
        · dsimp only
          rw [Function.update_self]
          rfl
    | @leave k h _ hcall _ hback =>
        simp only [Hart.action, hpc, hspin, if_true, Action.call.injEq] at hcall
        subst hcall
        have hsame := s.system.set_harts_same boot h s.system.mem
        refine Or.inl ⟨ht, Function.update_self _ _ _, ?_, ?_⟩
        · rw [hsame, hback]
          simp [Pc.stage]
        · rw [hsame, hback]
          simp
  · rintro j s t hj ⟨hs, p, hmain⟩ hturn
    have hcall := (hturn.others hj.symm).2
    exact Or.inr ⟨⟨hkeeps _ _ _ hs hturn, p, hcall.trans hmain⟩, by rw [hcall]⟩

theorem returned_leadsTo_bootGone :
    LeadsTo r (Returned img L N F env fuel m0 arg boot)
      (BootGone img L N F env fuel m0 arg boot) := by
  refine hr.leadsTo Nat.lt_wfRel.wf (fun s => (s.system.harts boot).pc.toNext) boot ?_ ?_ ?_
  · rintro s ⟨hs, _, hstage, hpc⟩
    have hnot (pc : Pc b) (hlow : pc.stage < 7) : (s.system.harts boot).pc ≠ pc := by
      rintro rfl
      omega
    have hstays (a : BitVec (8 * b)) : (s.system.harts boot).pc ≠ .nextStage a := by
      intro hat
      rw [hat, (hs.run.inv.safe.next_stage boot a (Or.inl hat)).1] at hpc
      exact hpc rfl
    obtain ⟨h, m, hstep⟩ := Hart.step_exists img s.system.mem (h := s.system.harts boot)
      (hnot _ (by simp [Pc.stage]))
      (fun a => ⟨hstays a, hnot _ (by simp [Pc.stage]), hnot _ (by simp [Pc.stage])⟩)
    exact ⟨_, .hart hstep⟩
  · rintro s t ⟨hs, hmain, hstage, hpc⟩ hturn
    have ht := hkeeps _ _ _ hs hturn
    cases hturn with
    | @hart h m hstep =>
        obtain ⟨hstage', hless⟩ := hs.run.inv.boot_at.toNext_step hstage hstep
        have hsame := s.system.set_harts_same boot h m
        by_cases hgone : h.pc = .nextStage N
        · exact Or.inl ⟨ht, by rw [hsame]; exact hgone⟩
        · exact Or.inr ⟨⟨ht, hmain, by rw [hsame]; exact hstage', by rw [hsame]; exact hgone⟩,
            by rw [hsame]; exact hless⟩
    | enter hat => simp [hat, Pc.stage] at hstage
    | access hcall | leave hcall => rw [hmain] at hcall; cases hcall
  · rintro j s t hj ⟨hs, hmain, hstage, hpc⟩ hturn
    obtain ⟨hsame, hcall⟩ := hturn.others hj.symm
    exact Or.inr ⟨⟨hkeeps _ _ _ hs hturn, hcall.trans hmain, hsame ▸ hstage, hsame ▸ hpc⟩,
      by rw [hsame]⟩

/-- With the boot hart gone, a hart that has lost follows. -/
theorem bootGone_leadsTo_gone (hN : N ≠ 0) (hi : i ≠ boot) :
    LeadsTo r (BootGone img L N F env fuel m0 arg boot)
      (fun s => (s.system.harts i).pc = .secondaryNextStage N) := by
  have hlost (s : Boot b ι) (hs : BootGone img L N F env fuel m0 arg boot s) :
      LoserAt img L N F 8 (s.system.harts i) ∧ MemAt img L N F 8 s.system.mem ∧
        loadWord s.system.mem (img.addr L .bootStatus) = (1 : BitVec (8 * b)) := by
    obtain ⟨hs, hpc⟩ := hs
    have hstage : (s.system.harts boot).pc.stage = 8 := by rw [hpc]; rfl
    exact ⟨hstage ▸ hs.run.inv.losers i hi, hstage ▸ hs.run.inv.mem_at,
      hs.status.set (by omega)⟩
  have hfollows : LeadsTo r
      (fun s => BootGone img L N F env fuel m0 arg boot s ∧
        (s.system.harts i).pc ≠ .secondaryNextStage N)
      (fun s => (s.system.harts i).pc = .secondaryNextStage N) := by
    refine hr.leadsTo Nat.lt_wfRel.wf (fun s => (s.system.harts i).pc.toSecondary) i ?_ ?_ ?_
    · rintro s ⟨hs, hpc⟩
      have hloser := (hlost s hs).1
      obtain ⟨h, m, hstep⟩ := hloser.step_exists img s.system.mem hpc
      exact ⟨_, .hart hstep⟩
    · rintro s t ⟨hs, hpc⟩ hturn
      obtain ⟨hloser, hmem, hstatus⟩ := hlost s hs
      have ht := hkeeps _ _ _ hs.1 hturn
      have hboot : (t.system.harts boot).pc = .nextStage N := by
        rw [(hturn.others hi.symm).1]
        exact hs.2
      have hnone := hs.1.run.others i hi
      cases hturn with
      | @hart h m hstep =>
          have hsame := s.system.set_harts_same i h m
          have hloser' := (hlost _ ⟨ht, hboot⟩).1
          dsimp only at hloser'
          rw [hsame] at hloser'
          have hless := hloser.toSecondary_step hloser' hmem hN hstatus hstep
          by_cases hgone : h.pc = .secondaryNextStage N
          · exact Or.inl (by rw [hsame]; exact hgone)
          · exact Or.inr ⟨⟨⟨ht, hboot⟩, by rw [hsame]; exact hgone⟩, by rw [hsame]; exact hless⟩
      | enter hat =>
          have hpath := hloser.not_bootPath
          rw [hat] at hpath
          cases hpath
      | access hcall | leave hcall => rw [hnone] at hcall; cases hcall
    · rintro j s t hj ⟨hs, hpc⟩ hturn
      have hsame := (hturn.others hj.symm).1
      have hboot := (hturn.gone (Or.inl hs.2)).trans hs.2
      exact Or.inr ⟨⟨⟨hkeeps _ _ _ hs.1 hturn, hboot⟩, hsame ▸ hpc⟩, by rw [hsame]⟩
  intro n hn
  by_cases hgone : ((r n).system.harts i).pc = .secondaryNextStage N
  · exact ⟨n, le_rfl, hgone⟩
  · exact hfollows n ⟨hn, hgone⟩

end LeadsTo

/-! ### The whole boot -/

section Whole

variable [Fintype ι] {img : Image b} {L N F : BitVec (8 * b)} {env : Env b} {fuel : Nat}
  {s0 s t : Boot b ι} {i : ι} {r : Nat → Boot b ι}

theorem Boot.Turn.first (h0 : PowerOn img L N F s0.system) (hmain : ∀ i, s0.main i = none)
    (hapart : img.Apart L) (hturn : Boot.Turn img env fuel i s0 t) :
    ∃ boot, Before img L N F env fuel s0.system.mem (s0.system.harts boot).a1 boot t := by
  obtain ⟨boot, hrun⟩ := BootRun.first h0 hmain hapart (Boot.step_iff_turn.mpr ⟨i, hturn⟩)
  have hstarted := hrun.inv.boot_at.started
  have hi : boot = i := by
    by_contra hne
    rw [(hturn.others hne).1, h0.pc boot] at hstarted
    exact hstarted rfl
  subst hi
  have hat : (t.system.harts boot).pc = .saveLoadStart ∧ t.main boot = none := by
    have hpos := hrun.inv.boot_at.stage_pos
    cases hturn with
    | @hart h m hstep =>
        dsimp only at hpos ⊢
        rw [System.set_harts_same] at hpos ⊢
        refine ⟨(Hart.step_draw (h0.pc boot) hstep).resolve_right (fun hpc => ?_), hmain boot⟩
        simp [hpc, Pc.stage] at hpos
    | enter hpc => simp [h0.pc boot] at hpc
    | access hcall | leave hcall => rw [hmain boot] at hcall; cases hcall
  refine ⟨boot, ⟨hrun, ?_, ?_⟩, hat.2, Or.inr ?_⟩
  · simp [hat.1]
  · simp [hat.1, Pc.stage]
  · simp [hat.1, Pc.beforeMain, Pc.stage]

theorem Boot.first_turn (hr : FairRun (Boot.Turn img env fuel) r)
    (h0 : PowerOn img L N F (r 0).system) (hmain : ∀ i, (r 0).main i = none)
    (hapart : img.Apart L) (i : ι) :
    ∃ n boot,
      Before img L N F env fuel (r 0).system.mem ((r 0).system.harts boot).a1 boot (r n) := by
  by_contra hnone
  have hfirst (j : ι) (n : Nat) (hn : r n = r 0) :
      ¬ Boot.Turn img env fuel j (r n) (r (n + 1)) := by
    intro hturn
    rw [hn] at hturn
    obtain ⟨boot, hbefore⟩ := hturn.first h0 hmain hapart
    exact hnone ⟨n + 1, boot, hbefore⟩
  have hsame (n : Nat) : r n = r 0 := by
    induction n with
    | zero => rfl
    | succ n ih =>
        rcases hr.next n with hstays | ⟨j, hturn⟩
        · exact hstays.trans ih
        · exact absurd hturn (hfirst j n ih)
  obtain ⟨k, _, hturn | hstuck⟩ := hr.fair i 0
  · exact hfirst i k (hsame k) hturn
  · rw [hsame k] at hstuck
    obtain ⟨h, m, hstep⟩ := Hart.step_exists img (r 0).system.mem (h := (r 0).system.harts i)
      (by simp [h0.pc i]) (by simp [h0.pc i])
    exact hstuck _ (.hart hstep)

/-- In a run from power-on that passes no hart over for ever, and in which the call of
`zstage_main` returns, all harts are in the next booting stage from some time on. -/
theorem boot_completes (img : Image b) (L N F : BitVec (8 * b)) (env : Env b) (fuel : Nat)
    (bs : List Blob) (r : Nat → Boot b ι) (h0 : PowerOn img L N F (r 0).system)
    (hmain : ∀ i, (r 0).main i = none) (hspin : img.noSpin = true)
    (hcard : Fintype.card ι < 2 ^ 32) (hapart : img.Apart L)
    (hord : L = img.runAddr ∨ img.runAddr.toInt + img.size ≤ 2 ^ (8 * b - 1))
    (htop : img.runAddr.toInt + img.bssEnd < 2 ^ (8 * b - 1))
    (hlayout : ∀ i, Layout img L env (img.relocated L (r 0).system.mem img.bssEnd)
      ((r 0).system.harts i).a1 bs)
    (hreturns : ∀ i, ∃ m, zstageMain env fuel ((r 0).system.harts i).a1 img.runAddr
      (img.addr img.runAddr .blobTable) (img.relocated L (r 0).system.mem img.bssEnd) =
        .returned m)
    (hN : N ≠ 0) (hr : FairRun (Boot.Turn img env fuel) r) :
    ∃ n, ∀ k, n ≤ k → ∀ i, ((r k).system.harts i).pc = .nextStage N ∨
      ((r k).system.harts i).pc = .secondaryNextStage N := by
  have hord' (hne : L ≠ img.runAddr) : img.CopyOrdered L :=
    Image.copyOrdered_of_disjoint (hord.resolve_left hne) (hapart.resolve_left hne)
  have hconfined (j : ι) : (zstageProg env fuel ((r 0).system.harts j).a1 img.runAddr
      (img.addr img.runAddr .blobTable)).Confined (img.HeadWord L) (img.MainWrites L)
      (img.relocated L (r 0).system.mem img.bssEnd) :=
    zstageProg_confined img.xlen fuel (hlayout j).table (hlayout j).destinations
      (hlayout j).sources ((hlayout j).isolated hapart)
  have hcomes (i : ι) : ∃ n, ((r n).system.harts i).pc = .nextStage N ∨
      ((r n).system.harts i).pc = .secondaryNextStage N := by
    obtain ⟨n, boot, hbefore⟩ := Boot.first_turn hr h0 hmain hapart i
    have hkeeps (i : ι) (s t : Boot b ι)
        (hs : Underway img L N F env fuel (r 0).system.mem ((r 0).system.harts boot).a1 boot s)
        (hturn : Boot.Turn img env fuel i s t) :=
      hs.step hspin hcard hapart hord' htop (hconfined boot) hturn
    have hboot := ((before_leadsTo_calling hr hkeeps hapart hord').trans
      (calling_leadsTo_returned hr hkeeps hspin (hreturns boot))).trans
      (returned_leadsTo_bootGone hr hkeeps)
    obtain ⟨k, _, hgone⟩ := hboot n hbefore
    rcases eq_or_ne i boot with rfl | hi
    · exact ⟨k, Or.inl hgone.2⟩
    · obtain ⟨l, _, hlast⟩ := bootGone_leadsTo_gone hr hkeeps hN hi k hgone
      exact ⟨l, Or.inr hlast⟩
  choose n hn using hcomes
  refine ⟨Finset.univ.sup n, fun k hk i => ?_⟩
  have hle : n i ≤ k := (Finset.le_sup (Finset.mem_univ i)).trans hk
  refine hr.stays (P := fun s => (s.system.harts i).pc = .nextStage N ∨
    (s.system.harts i).pc = .secondaryNextStage N) ?_ hle (hn i)
  intro j s t hs hturn
  rw [hturn.gone hs]
  exact hs

end Whole

/-! ### Harts that take turns in order -/

/-- A hart with a call to go on with stands at it. -/
def Boot.InCall (s : Boot b ι) : Prop :=
  ∀ i p, s.main i = some p → (s.system.harts i).pc = .main

section Order

variable {img : Image b} {env : Env b} {fuel : Nat} {i : ι} {s t : Boot b ι}

theorem Boot.InCall.turn (hs : s.InCall) (hturn : Boot.Turn img env fuel i s t) : t.InCall := by
  intro j p hp
  rcases eq_or_ne j i with rfl | hj
  · cases hturn with
    | hart hstep => simp [Hart.step, Hart.action, hs j p hp, Action.exec] at hstep
    | enter hpc => exact hpc
    | access hmain =>
        dsimp only
        rw [System.set_harts_same]
        exact hs j _ hmain
    | leave =>
        dsimp only at hp
        rw [Function.update_self] at hp
        cases hp
  · obtain ⟨hsame, hcall⟩ := hturn.others hj
    rw [hsame]
    exact hs j p (hcall ▸ hp)

theorem Boot.next_none (hs : s.InCall) (hnone : s.next img env fuel i = none) :
    ¬ Boot.Turn img env fuel i s t := by
  intro hturn
  unfold Boot.next at hnone
  cases hturn with
  | hart hstep =>
      cases hcall : s.main i with
      | some p => simp [Hart.step, Hart.action, hs i p hcall, Action.exec] at hstep
      | none =>
          have hpc : (s.system.harts i).pc ≠ .main := by
            intro hpc
            simp [Hart.step, Hart.action, hpc, Action.exec] at hstep
          simp [hcall, hpc, hstep] at hnone
  | enter hpc hcall => simp [hcall, hpc] at hnone
  | access hcall => simp [hcall] at hnone
  | leave hcall hact => simp [hcall, hact] at hnone

variable {c : Nat}

/-- The harts take their turns in order; one without a step lets its turn pass. -/
def Boot.roundRobin (img : Image b) (env : Env b) (fuel : Nat) (s0 : Boot b (Fin (c + 1))) :
    Nat → Boot b (Fin (c + 1))
  | 0 => s0
  | n + 1 => ((roundRobin img env fuel s0 n).next img env fuel (Fin.ofNat (c + 1) n)).getD
      (roundRobin img env fuel s0 n)

theorem Boot.roundRobin_next (img : Image b) (env : Env b) (fuel : Nat)
    (s0 : Boot b (Fin (c + 1))) (n : Nat) :
    (Boot.roundRobin img env fuel s0 n).next img env fuel (Fin.ofNat (c + 1) n) = none ∧
        Boot.roundRobin img env fuel s0 (n + 1) = Boot.roundRobin img env fuel s0 n ∨
      Boot.Turn img env fuel (Fin.ofNat (c + 1) n) (Boot.roundRobin img env fuel s0 n)
        (Boot.roundRobin img env fuel s0 (n + 1)) := by
  rw [Boot.roundRobin]
  cases hnext : (Boot.roundRobin img env fuel s0 n).next img env fuel (Fin.ofNat (c + 1) n) with
  | none => exact Or.inl ⟨rfl, rfl⟩
  | some t => exact Or.inr (Boot.next_turn hnext)

theorem Boot.roundRobin_fair {s0 : Boot b (Fin (c + 1))} (hs : s0.InCall) :
    FairRun (Boot.Turn img env fuel) (Boot.roundRobin img env fuel s0) := by
  have hincall (n : Nat) : (Boot.roundRobin img env fuel s0 n).InCall := by
    induction n with
    | zero => exact hs
    | succ n ih =>
        rcases Boot.roundRobin_next img env fuel s0 n with ⟨_, hsame⟩ | hturn
        · rw [hsame]
          exact ih
        · exact ih.turn hturn
  constructor
  · intro n
    rcases Boot.roundRobin_next img env fuel s0 n with ⟨_, hsame⟩ | hturn
    · exact Or.inl hsame
    · exact Or.inr ⟨_, hturn⟩
  · intro i n
    have hlater : n ≤ n * (c + 1) + i.val :=
      Nat.le_add_right_of_le (Nat.le_mul_of_pos_right n (Nat.succ_pos c))
    have hwho : Fin.ofNat (c + 1) (n * (c + 1) + i.val) = i := by
      apply Fin.ext
      rw [Fin.val_ofNat, Nat.mul_comm, Nat.mul_add_mod, Nat.mod_eq_of_lt i.isLt]
    refine ⟨_, hlater, ?_⟩
    have hnext := Boot.roundRobin_next img env fuel s0 (n * (c + 1) + i.val)
    rw [hwho] at hnext
    rcases hnext with ⟨hnone, _⟩ | hturn
    · exact Or.inr (fun t => Boot.next_none (hincall _) hnone)
    · exact Or.inl hturn

end Order

theorem sampleBoot_returns {L : BitVec (8 * 8)} (hL : SamplePlace L) :
    ∃ m, zstageMain sampleBootEnv 2 0x3000 sampleImage.runAddr
      (sampleImage.addr sampleImage.runAddr .blobTable) (sampleRelocated L) = .returned m := by
  have hsome : (zstageMain sampleBootEnv 2 0x3000 sampleImage.runAddr
      (sampleImage.addr sampleImage.runAddr .blobTable) (sampleRelocated L)).memory.isSome =
        true := by
    rcases hL with rfl | rfl <;> decide +kernel
  generalize zstageMain sampleBootEnv 2 0x3000 sampleImage.runAddr
    (sampleImage.addr sampleImage.runAddr .blobTable) (sampleRelocated L) = o at hsome
  cases o with
  | returned m => exact ⟨m, rfl⟩
  | hang => cases hsome
  | running => cases hsome

/-- The two harts of the sample take turns, and both arrive, whether the image is loaded where
it runs or has to be relocated. -/
theorem boot_completes_sample :
    let run (L : BitVec (8 * 8)) := Boot.roundRobin sampleImage sampleBootEnv 2 (sampleBoot L)
    let Arrives (L : BitVec (8 * 8)) : Prop := ∃ n, ∀ k, n ≤ k → ∀ i,
      ((run L k).system.harts i).pc = .nextStage 0x6000 ∨
        ((run L k).system.harts i).pc = .secondaryNextStage 0x6000
    Arrives 0x10000 ∧ Arrives 0x20000 := by
  intro run Arrives
  have harrives (L : BitVec (8 * 8)) (hL : SamplePlace L) : Arrives L :=
    boot_completes sampleImage L 0x6000 0x4000 sampleBootEnv 2 sampleBlobs (run L)
      (sampleBoot_powerOn hL) (fun _ => rfl) rfl (by decide) (sampleBoot_apart hL)
      (Or.inr (by decide)) (by decide) (fun _ => sampleBoot_layout hL)
      (fun _ => sampleBoot_returns hL) (by decide)
      (Boot.roundRobin_fair (fun _ _ hcall => by cases hcall))
  exact ⟨harrives _ (Or.inl rfl), harrives _ (Or.inr rfl)⟩

end ZStage.Main
