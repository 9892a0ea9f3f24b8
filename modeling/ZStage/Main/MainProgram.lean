import ZStage.Lib.Interleaving
import ZStage.Main.Handover

/-!
`zstage_main` one access to shared memory at a time: a byte of `memcpy` is loaded and then
stored, a field of the image header, of the blob table or of the FDT header is one access,
and so is what a call does to zStage's own memory. Alone it is the `zstage_main` that runs
in one piece. With memory that others write laid out apart from everything it reads, it is
confined on that run.
-/

namespace ZStage.Main

open ZStage.Lib.ByteMemory ZStage.Lib.CopySequence ZStage.Lib.Interleaving

variable {b : Nat}

/-- How a call of `zstage_main` ends, apart from memory. -/
inductive Ending
  | returned
  | hang
  | running
  deriving DecidableEq, Repr

def Ending.outcome : Ending × Memory (8 * b) → Outcome b
  | (.returned, m) => .returned m
  | (.hang, _) => .hang
  | (.running, _) => .running

@[simp] theorem outcome_returned (m : Memory (8 * b)) :
    Ending.outcome (.returned, m) = .returned m := rfl

@[simp] theorem outcome_hang (m : Memory (8 * b)) : Ending.outcome (.hang, m) = .hang := rfl

@[simp] theorem outcome_running (m : Memory (8 * b)) :
    Ending.outcome (.running, m) = .running := rfl

section Code

open Prog

def memcpyProg {w : Nat} (dest src : BitVec w) : Nat → Prog w Unit
  | 0 => pure ()
  | count + 1 => do
    let byte ← look fun m => m src
    change fun m x => if x = dest then byte else m x
    memcpyProg (dest + 1) (src + 1) count

variable (env : Env b)

def callMemcpyProg (dest src : BitVec (8 * b)) (count : Nat) : Prog (8 * b) Unit := do
  change (env.touch .memcpy)
  memcpyProg dest src count

def printfProg (format : String) (args : List PrintArg) : Prog (8 * b) Unit :=
  change (env.touch (.printf format args))

def platformPrepareFdtProg (bootArg1 hdr : BitVec (8 * b)) : Prog (8 * b) Int := do
  change (env.touch (.platformPrepareFdt bootArg1 hdr))
  let magic ← look (fdt32 · bootArg1)
  if magic ≠ fdtMagic then pure (-10)
  else do
    let dest ← look (hdrField · hdr .nextFdtAddr)
    let count ← look (fdtTotalsize · bootArg1)
    callMemcpyProg env (ptr b dest) bootArg1 (sizeT b count)
    pure 0

/-- Whether the end of the blob table came within the given number of entries. -/
def copyBlobsProg (blobs : BitVec (8 * b)) : Nat → Prog (8 * b) Bool
  | 0 => pure false
  | fuel + 1 => do
    let blob ← look (readBlob · blobs)
    if blob.size ≠ 0 then do
      printfProg env "zstage: copying %s (%lu bytes) to 0x%lx from 0x%lx\n"
        [.str "blob", .num blob.size, .num blob.dstAddr, .num blob.srcAddr]
      let blob ← look (readBlob · blobs)
      callMemcpyProg env (ptr b blob.dstAddr) (ptr b blob.srcAddr) (sizeT b blob.size)
      copyBlobsProg (blobs + BitVec.ofNat (8 * b) blobSize) fuel
    else pure true

def copyNextStageProg (hdr : BitVec (8 * b)) : Prog (8 * b) Unit := do
  let load ← look (hdrField · hdr .nextLoadAddr)
  let run ← look (hdrField · hdr .nextRunAddr)
  if load ≠ run then do
    let size ← look (hdrField · hdr .nextSize)
    printfProg env "zstage: copying %s (%lu bytes) to 0x%lx from 0x%lx\n"
      [.str "next stage", .num size, .num run, .num load]
    let run ← look (hdrField · hdr .nextRunAddr)
    let load ← look (hdrField · hdr .nextLoadAddr)
    let size ← look (hdrField · hdr .nextSize)
    callMemcpyProg env (ptr b run) (ptr b load) (sizeT b size)
  else pure ()

def finishProg (bootArg1 hdr : BitVec (8 * b)) : Prog (8 * b) Ending := do
  let fdtAddr ← look (hdrField · hdr .nextFdtAddr)
  printfProg env "zstage: setup platform FDT at 0x%lx\n" [.num fdtAddr]
  let rc ← platformPrepareFdtProg env bootArg1 hdr
  if rc ≠ 0 then pure .hang
  else do
    copyNextStageProg env hdr
    let run ← look (hdrField · hdr .nextRunAddr)
    let size ← look (hdrField · hdr .nextSize)
    printfProg env "zstage: next booting stage at 0x%lx (%lu bytes)\n" [.num run, .num size]
    change (env.touch (.platformFinalInit bootArg1))
    printfProg env "zstage: jumping to next booting stage\n" []
    pure .returned

def bannerProg : List (Call b) → Prog (8 * b) Unit
  | [] => pure ()
  | line :: lines => do
    change (env.touch line)
    bannerProg lines

def zstageProg (fuel : Nat) (bootArg1 hdr blobs : BitVec (8 * b)) : Prog (8 * b) Ending := do
  let magic ← look (hdrField · hdr .magic)
  let version ← look (hdrField · hdr .version)
  if magic ≠ imageMagic ∨ version ≠ imageVersion then pure .hang
  else do
    let rc ← look (env.consoleInit bootArg1)
    change (env.touch (.consoleInit bootArg1))
    if rc ≠ 0 then pure .hang
    else do
      bannerProg env env.banner
      change (env.touch (.platformEarlyInit bootArg1))
      printfProg env "zstage: console device %s\n" [.deviceName]
      if ← copyBlobsProg env blobs fuel then finishProg env bootArg1 hdr
      else pure .running

end Code

/-! ### The program alone -/

section Alone

variable (env : Env b)

@[simp] theorem run_memcpyProg {w : Nat} (dest src : BitVec w) (count : Nat) (m : Memory w) :
    (memcpyProg dest src count).run m = ((), memcpy dest src count m) := by
  induction count generalizing dest src m with
  | zero => rfl
  | succ count ih => exact ih (dest + 1) (src + 1) _

theorem run_callMemcpyProg (dest src : BitVec (8 * b)) (count : Nat) (m : Memory (8 * b)) :
    (callMemcpyProg env dest src count).run m = ((), callMemcpy env dest src count m) := by
  rw [callMemcpyProg, Prog.run_change_bind, run_memcpyProg]
  rfl

@[simp] theorem run_callMemcpyProg_bind {ρ : Type} (dest src : BitVec (8 * b)) (count : Nat)
    (k : Unit → Prog (8 * b) ρ) (m : Memory (8 * b)) :
    (callMemcpyProg env dest src count >>= k).run m =
      (k ()).run (callMemcpy env dest src count m) := by
  rw [Prog.run_bind, run_callMemcpyProg]

@[simp] theorem run_printfProg_bind {ρ : Type} (format : String) (args : List PrintArg)
    (k : Unit → Prog (8 * b) ρ) (m : Memory (8 * b)) :
    (printfProg env format args >>= k).run m = (k ()).run (printf env format args m) := rfl

theorem run_platformPrepareFdtProg (bootArg1 hdr : BitVec (8 * b)) (m : Memory (8 * b)) :
    (platformPrepareFdtProg env bootArg1 hdr).run m = platformPrepareFdt env bootArg1 hdr m := by
  simp only [platformPrepareFdtProg, platformPrepareFdt, Prog.run_change_bind, Prog.run_look_bind,
    Prog.run_ite, Prog.run_pure, run_callMemcpyProg_bind]

theorem run_bannerProg (lines : List (Call b)) (m : Memory (8 * b)) :
    (bannerProg env lines).run m = ((), lines.foldl (fun m line => env.touch line m) m) := by
  induction lines generalizing m with
  | nil => rfl
  | cons line lines ih => exact ih (env.touch line m)

theorem run_copyBlobsProg (blobs : BitVec (8 * b)) (fuel : Nat) (m : Memory (8 * b)) :
    copyBlobs env blobs fuel m =
      if ((copyBlobsProg env blobs fuel).run m).1 then
        some ((copyBlobsProg env blobs fuel).run m).2
      else none := by
  induction fuel generalizing blobs m with
  | zero => rfl
  | succ fuel ih =>
      simp only [copyBlobs, copyBlobsProg, Prog.run_look_bind, Prog.run_ite, Prog.run_pure,
        run_printfProg_bind, run_callMemcpyProg_bind, ih]
      by_cases hsize : (readBlob m blobs).size = 0 <;> simp only [hsize, ne_eq, not_true,
        not_false_eq_true, if_true, if_false]

theorem run_copyNextStageProg (hdr : BitVec (8 * b)) (m : Memory (8 * b)) :
    (copyNextStageProg env hdr).run m = ((), copyNextStage env hdr m) := by
  simp only [copyNextStageProg, copyNextStage, Prog.run_look_bind, Prog.run_ite,
    Prog.run_pure, run_printfProg_bind, run_callMemcpyProg, apply_ite (Prod.mk ())]

theorem run_finishProg (bootArg1 hdr : BitVec (8 * b)) (m : Memory (8 * b)) :
    Ending.outcome ((finishProg env bootArg1 hdr).run m) = finish env bootArg1 hdr m := by
  simp only [finishProg, finish, platformFinalInit, Prog.run_look_bind, run_printfProg_bind,
    Prog.run_bind (platformPrepareFdtProg _ _ _), run_platformPrepareFdtProg]
  by_cases hrc : (platformPrepareFdt env bootArg1 hdr (printf env
      "zstage: setup platform FDT at 0x%lx\n" [.num (hdrField m hdr .nextFdtAddr)] m)).1 = 0
  · simp only [hrc, ne_eq, not_true, if_false, Prog.run_bind (copyNextStageProg _ _),
      run_copyNextStageProg, Prog.run_look_bind, run_printfProg_bind, Prog.run_change_bind]
    rfl
  · simp only [hrc, ne_eq, not_false_eq_true, if_true]
    rfl

/-- Access by access, `zstage_main` is the one that runs in one piece. -/
theorem run_zstageProg (fuel : Nat) (bootArg1 hdr blobs : BitVec (8 * b)) (m : Memory (8 * b)) :
    Ending.outcome ((zstageProg env fuel bootArg1 hdr blobs).run m) =
      zstageMain env fuel bootArg1 hdr blobs m := by
  simp only [zstageProg, zstageMain, platformEarlyInit, Prog.run_look_bind, Prog.run_change_bind,
    Prog.run_ite, Prog.run_pure, apply_ite Ending.outcome, Prog.run_bind (bannerProg _ _),
    run_bannerProg, run_printfProg_bind, outcome_hang, ne_eq, not_true, if_false,
    run_copyBlobsProg]
  generalize printf env "zstage: console device %s\n" [.deviceName] _ = m1
  rw [Prog.run_bind]
  cases ((copyBlobsProg env blobs fuel).run m1).1 with
  | false => simp only [Bool.false_eq_true, if_false, Prog.run_pure, outcome_running]
  | true => simp only [if_true, run_finishProg]

end Alone

/-! ### The program among others -/

/-- zStage's own code and data take nothing from the bytes of `foreign`, and all that its calls
write beside the copies are bytes of `own`. -/
structure Env.Apart (env : Env b) (foreign own : BitVec (8 * b) → Prop) : Prop where
  touch : ∀ c m m', Within foreign m m' → Within foreign (env.touch c m) (env.touch c m')
  own_le : ∀ x, env.own x → own x

/-- A layout in which others write bytes of `foreign` only, apart from all that
`zstage_main` reads. -/
structure Isolated (env : Env b) (foreign own : BitVec (8 * b) → Prop) (m : Memory (8 * b))
    (bootArg1 hdr table : BitVec (8 * b)) (bs : List Blob) : Prop where
  apart : env.Apart foreign own
  consoleInit : ∀ m', Within foreign m m' →
    env.consoleInit bootArg1 m' = env.consoleInit bootArg1 m
  dest : ∀ c ∈ copies m bootArg1 hdr bs, ∀ x, InRange c.dst c.size x → own x
  source : ∀ c ∈ copies m bootArg1 hdr bs, ∀ x, InRange c.src c.size x → ¬ foreign x
  constant : ∀ x, InRange hdr headerSize x ∨ InRange table (tableSize bs) x → ¬ foreign x

section Confined

open Prog

theorem memcpyProg_confined {w : Nat} {foreign own : BitVec w → Prop} (dest src : BitVec w)
    (count : Nat) (m : Memory w) (hcount : count ≤ 2 ^ w)
    (hsrc : ∀ x, InRange src count x → ¬ foreign x)
    (hdest : ∀ x, InRange dest count x → own x) :
    (memcpyProg dest src count).Confined foreign own m := by
  induction count generalizing dest src m with
  | zero => exact confined_pure ()
  | succ count ih =>
      refine confined_look_bind (fun m' hm' => hm' src (hsrc src (inRange_self src (by omega)))) ?_
      refine confined_change_bind (fun m' hm' x hx => ?_) (fun m' x hx => ?_) ?_
      · by_cases hat : x = dest
        · simp only [hat, if_true]
        · simp only [hat, if_false]
          exact hm' x hx
      · have hat : x ≠ dest := by
          rintro rfl
          exact hx (hdest x (inRange_self x (by omega)))
        simp only [hat, if_false]
      · have hone : (1 : BitVec w) = BitVec.ofNat w 1 := rfl
        apply ih
        · omega
        · intro x hx
          exact hsrc x (inRange_mono (Nat.add_comm 1 count).le hcount (hone ▸ hx))
        · intro x hx
          exact hdest x (inRange_mono (Nat.add_comm 1 count).le hcount (hone ▸ hx))

variable {env : Env b} {foreign own : BitVec (8 * b) → Prop} {m : Memory (8 * b)}
  {bootArg1 hdr : BitVec (8 * b)}

theorem Env.Apart.touch_bind {ρ : Type} (he : env.Apart foreign own) (c : Call b)
    {k : Unit → Prog (8 * b) ρ} (hk : (k ()).Confined foreign own (env.touch c m)) :
    (change (env.touch c) >>= k).Confined foreign own m :=
  confined_change_bind (he.touch c m)
    (fun m' x hx => env.within c m' x (fun hown => hx (he.own_le x hown))) hk

/-- What a copy needs so that others do not meet it. -/
structure CopyApart (foreign own : BitVec (8 * b) → Prop) (c : Copy (8 * b)) : Prop where
  size_lt : c.size < 2 ^ (8 * b)
  source : ∀ x, InRange c.src c.size x → ¬ foreign x
  dest : ∀ x, InRange c.dst c.size x → own x

theorem callMemcpyProg_confined (he : env.Apart foreign own) (m : Memory (8 * b))
    {c : Copy (8 * b)} (hc : CopyApart foreign own c) :
    (callMemcpyProg env c.dst c.src (sizeT b c.size)).Confined foreign own m := by
  refine he.touch_bind _ ?_
  rw [sizeT, Nat.mod_eq_of_lt hc.size_lt]
  exact memcpyProg_confined _ _ _ _ hc.size_lt.le hc.source hc.dest

/-- A call of `memcpy` leaves what is neither zStage's own memory nor its destination. -/
theorem callMemcpy_kept (env : Env b) (m : Memory (8 * b)) {c : Copy (8 * b)}
    (hsize : c.size < 2 ^ (8 * b)) {x : BitVec (8 * b)} (hown : ¬ env.own x)
    (hx : ¬ InRange c.dst c.size x) :
    callMemcpy env c.dst c.src (sizeT b c.size) m x = m x := by
  rw [callMemcpy, sizeT, Nat.mod_eq_of_lt hsize, memcpy_eq_copyUp, copyUp_of_not_inRange]
  · exact env.within _ m x hown
  · omega
  · rwa [Nat.one_mul]

theorem copyBlobsProg_confined (he : env.Apart foreign own) (bs : List Blob) (fuel : Nat)
    (blobs : BitVec (8 * b)) (hbs : BlobsAt m blobs bs) (hfit : tableSize bs ≤ 2 ^ (8 * b))
    (htable : ∀ x, InRange blobs (tableSize bs) x → ¬ env.own x ∧ ¬ foreign x)
    (happart : ∀ c ∈ bs.map (blobCopy b), ∀ x, InRange c.dst c.size x →
      ¬ InRange blobs (tableSize bs) x)
    (hcopies : ∀ c ∈ bs.map (blobCopy b), CopyApart foreign own c) :
    (copyBlobsProg env blobs fuel).Confined foreign own m := by
  induction fuel generalizing bs blobs m with
  | zero => exact confined_pure false
  | succ fuel ih =>
      have hhead : blobSize ≤ tableSize bs := Nat.le_mul_of_pos_right blobSize (Nat.succ_pos _)
      have hseen (m1 m' : Memory (8 * b)) (hm' : Within foreign m1 m') :
          readBlob m' blobs = readBlob m1 blobs :=
        readBlob_congr (by omega)
          (fun x hx => hm' x (htable x (Nat.lt_of_lt_of_le hx hhead)).2)
      refine confined_look_bind (hseen m) ?_
      cases bs with
      | nil =>
          have hzero : (readBlob m blobs).size = 0 := hbs
          rw [if_neg (not_not.mpr hzero)]
          exact confined_pure true
      | cons x xs =>
          have hlen : tableSize (x :: xs) = blobSize + tableSize xs := by
            simp only [tableSize, List.length_cons]
            ring
          rw [hlen] at hfit htable happart
          rw [List.map_cons] at happart hcopies
          have hx : readBlob m blobs = x := hbs.1
          have hnonzero : x.size ≠ 0 := hbs.2.1
          have hrest := hbs.2.2
          have hcopy := hcopies _ List.mem_cons_self
          rw [if_pos (by rw [hx]; exact hnonzero)]
          refine he.touch_bind _ ?_
          -- the entry is read again after the message
          generalize hm1 : env.touch _ m = m1
          have hown : Within env.own m m1 := hm1 ▸ env.within _ m
          refine confined_look_bind (hseen m1) ?_
          have hagain : readBlob m1 blobs = x := by
            refine (readBlob_congr (by omega) ?_).trans hx
            exact fun y hy => hown y (htable y (Nat.lt_add_right _ hy)).1
          rw [hagain]
          refine (callMemcpyProg_confined he m1 hcopy).bind ?_
          rw [run_callMemcpyProg]
          apply ih xs
          · refine hrest.congr (by omega) ?_
            intro y hy
            have hy' : InRange blobs (blobSize + tableSize xs) y := inRange_mono le_rfl hfit hy
            have hyown := (htable y hy').1
            have hkept := callMemcpy_kept env m1 hcopy.size_lt hyown
              (fun hin => happart _ List.mem_cons_self y hin hy')
            exact hkept.trans (hown y hyown)
          · omega
          · exact fun y hy => htable y (inRange_mono le_rfl hfit hy)
          · exact fun c hc y hy hin => happart c (List.mem_cons_of_mem _ hc) y hy
              (inRange_mono le_rfl hfit hin)
          · exact fun c hc => hcopies c (List.mem_cons_of_mem _ hc)

/-- What the end of `zstage_main` reads beside the sources of its copies. -/
structure HeadersApart (env : Env b) (foreign : BitVec (8 * b) → Prop)
    (bootArg1 hdr : BitVec (8 * b)) : Prop where
  hdr : ∀ x, InRange hdr headerSize x → ¬ env.own x ∧ ¬ foreign x
  fdt : ∀ x, InRange bootArg1 8 x → ¬ env.own x ∧ ¬ foreign x

theorem HeadersApart.hdrField (hh : HeadersApart env foreign bootArg1 hdr) (hb : b = 4 ∨ b = 8)
    (f : HeaderField) (m m' : Memory (8 * b)) (hm' : Within foreign m m') :
    hdrField m' hdr f = hdrField m hdr f :=
  hdrField_kept hb (fun x hx => (hh.hdr x hx).2) hm' f

theorem platformPrepareFdtProg_confined (he : env.Apart foreign own) (hb : b = 4 ∨ b = 8)
    (hh : HeadersApart env foreign bootArg1 hdr)
    (hc : CopyApart foreign own (fdtCopy m bootArg1 hdr)) :
    (platformPrepareFdtProg env bootArg1 hdr).Confined foreign own m := by
  refine he.touch_bind _ ?_
  generalize hm1 : env.touch _ m = m1
  have hown : Within env.own m m1 := hm1 ▸ env.within _ m
  have hseen (m' : Memory (8 * b)) (hm' : Within foreign m1 m') :=
    fdtWords_kept hb (fun x hx => (hh.fdt x hx).2) hm'
  refine confined_look_bind (fun m' hm' => (hseen m' hm').1) ?_
  refine confined_ite (fun _ => confined_pure _) (fun _ => ?_)
  refine confined_look_bind (hh.hdrField hb .nextFdtAddr m1) ?_
  refine confined_look_bind (fun m' hm' => (hseen m' hm').2) ?_
  rw [hdrField_kept hb (fun x hx => (hh.hdr x hx).1) hown,
    (fdtWords_kept hb (fun x hx => (hh.fdt x hx).1) hown).2]
  have hcall := callMemcpyProg_confined he m1 hc
  simp only [fdtCopy] at hcall
  exact hcall.bind (confined_pure _)

theorem copyNextStageProg_confined (he : env.Apart foreign own) (hb : b = 4 ∨ b = 8)
    (hh : HeadersApart env foreign bootArg1 hdr) (hc : CopyApart foreign own (nextCopy m hdr)) :
    (copyNextStageProg env hdr).Confined foreign own m := by
  refine confined_look_bind (hh.hdrField hb .nextLoadAddr m) ?_
  refine confined_look_bind (hh.hdrField hb .nextRunAddr m) ?_
  refine confined_ite (fun _ => ?_) (fun _ => confined_pure ())
  refine confined_look_bind (hh.hdrField hb .nextSize m) ?_
  refine he.touch_bind _ ?_
  generalize hm1 : env.touch _ m = m1
  have hown : Within env.own m m1 := hm1 ▸ env.within _ m
  have hfield := hdrField_kept hb (fun x hx => (hh.hdr x hx).1) hown
  refine confined_look_bind (hh.hdrField hb .nextRunAddr m1) ?_
  refine confined_look_bind (hh.hdrField hb .nextLoadAddr m1) ?_
  refine confined_look_bind (hh.hdrField hb .nextSize m1) ?_
  rw [hfield, hfield, hfield]
  have hcall := callMemcpyProg_confined he m1 hc
  simp only [nextCopy] at hcall
  exact hcall

theorem platformPrepareFdt_kept (hb : b = 4 ∨ b = 8) (hh : HeadersApart env foreign bootArg1 hdr)
    (hsize : (fdtCopy m bootArg1 hdr).size < 2 ^ (8 * b)) {x : BitVec (8 * b)}
    (hown : ¬ env.own x)
    (hx : ¬ InRange (fdtCopy m bootArg1 hdr).dst (fdtCopy m bootArg1 hdr).size x) :
    (platformPrepareFdt env bootArg1 hdr m).2 x = m x := by
  unfold platformPrepareFdt
  generalize hm1 : env.touch _ m = m1
  have hwithin : Within env.own m m1 := hm1 ▸ env.within _ m
  simp only [hdrField_kept hb (fun x hx => (hh.hdr x hx).1) hwithin,
    fdtWords_kept hb (fun x hx => (hh.fdt x hx).1) hwithin]
  split
  · exact hwithin x hown
  · exact (callMemcpy_kept env m1 hsize hown hx).trans (hwithin x hown)

theorem finishProg_confined (he : env.Apart foreign own) (hb : b = 4 ∨ b = 8)
    (hh : HeadersApart env foreign bootArg1 hdr)
    (hfdt : CopyApart foreign own (fdtCopy m bootArg1 hdr))
    (hnext : CopyApart foreign own (nextCopy m hdr))
    (happart : ∀ x, InRange (fdtCopy m bootArg1 hdr).dst (fdtCopy m bootArg1 hdr).size x →
      ¬ InRange hdr headerSize x) :
    (finishProg env bootArg1 hdr).Confined foreign own m := by
  refine confined_look_bind (hh.hdrField hb .nextFdtAddr m) ?_
  refine he.touch_bind _ ?_
  generalize hm1 : env.touch _ m = m1
  have hown : Within env.own m m1 := hm1 ▸ env.within _ m
  have hfield (f : HeaderField) := hdrField_kept hb (fun x hx => (hh.hdr x hx).1) hown f
  have hfdt1 : fdtCopy m1 bootArg1 hdr = fdtCopy m bootArg1 hdr := by
    simp only [fdtCopy, hfield, fdtWords_kept hb (fun x hx => (hh.fdt x hx).1) hown]
  have hprepare : (platformPrepareFdtProg env bootArg1 hdr).Confined foreign own m1 :=
    platformPrepareFdtProg_confined he hb hh (by rw [hfdt1]; exact hfdt)
  refine hprepare.bind ?_
  rw [run_platformPrepareFdtProg]
  refine confined_ite (fun _ => confined_pure _) (fun _ => ?_)
  generalize hm2 : (platformPrepareFdt env bootArg1 hdr m1).2 = m2
  have hkept (f : HeaderField) : hdrField m2 hdr f = hdrField m hdr f := by
    apply hdrField_congr (headerSize_le hb)
    intro x hx
    rw [← hm2, platformPrepareFdt_kept hb hh _ (hh.hdr x hx).1]
    · exact hown x (hh.hdr x hx).1
    · rw [hfdt1]
      exact fun hin => happart x hin hx
    · rw [hfdt1]
      exact hfdt.size_lt
  have hnext2 : nextCopy m2 hdr = nextCopy m hdr := by
    simp only [nextCopy, hkept]
  have hcopy : (copyNextStageProg env hdr).Confined foreign own m2 :=
    copyNextStageProg_confined he hb hh (by rw [hnext2]; exact hnext)
  refine hcopy.bind ?_
  rw [run_copyNextStageProg]
  refine confined_look_bind (hh.hdrField hb .nextRunAddr _) ?_
  refine confined_look_bind (hh.hdrField hb .nextSize _) ?_
  refine he.touch_bind _ ?_
  refine he.touch_bind _ ?_
  exact he.touch_bind _ (confined_pure _)

theorem bannerProg_confined (he : env.Apart foreign own) (lines : List (Call b)) :
    (bannerProg env lines).Confined foreign own m := by
  induction lines generalizing m with
  | nil => exact confined_pure ()
  | cons line lines ih => exact he.touch_bind _ ih

variable {table : BitVec (8 * b)} {bs : List Blob}

theorem Isolated.copyApart (hi : Isolated env foreign own m bootArg1 hdr table bs)
    (hdest : Destinations env m bootArg1 hdr table bs) (c : Copy (8 * b))
    (hc : c ∈ copies m bootArg1 hdr bs) : CopyApart foreign own c :=
  ⟨hdest.size_lt c hc, hi.source c hc, hi.dest c hc⟩

theorem Isolated.headers (hi : Isolated env foreign own m bootArg1 hdr table bs)
    (hsrc : Sources env m bootArg1 hdr table bs) : HeadersApart env foreign bootArg1 hdr where
  hdr := fun x hx => ⟨hsrc.constant x (Or.inl hx), hi.constant x (Or.inl hx)⟩
  fdt := by
    intro x hx
    have hc : fdtCopy m bootArg1 hdr ∈ copies m bootArg1 hdr bs := by simp [copies]
    exact ⟨hsrc.fdt_own x hx, hi.source _ hc x (hsrc.fdt_source hx)⟩

/-- In an isolated layout, no access of `zstage_main` meets what others write, nor writes
anything but `own`. -/
theorem zstageProg_confined (hb : b = 4 ∨ b = 8) (fuel : Nat) (hbs : BlobsAt m table bs)
    (hdest : Destinations env m bootArg1 hdr table bs)
    (hsrc : Sources env m bootArg1 hdr table bs)
    (hi : Isolated env foreign own m bootArg1 hdr table bs) :
    (zstageProg env fuel bootArg1 hdr table).Confined foreign own m := by
  have hh := hi.headers hsrc
  have he := hi.apart
  have hfit := hdest.table_le hb hbs
  have hlast (c : Copy (8 * b)) (hc : c ∈ [fdtCopy m bootArg1 hdr, nextCopy m hdr]) :
      c ∈ copies m bootArg1 hdr bs := List.mem_append_right _ hc
  have hblob (c : Copy (8 * b)) (hc : c ∈ bs.map (blobCopy b)) :
      c ∈ copies m bootArg1 hdr bs := List.mem_append_left _ hc
  have happart (c : Copy (8 * b)) (hc : c ∈ bs.map (blobCopy b)) (x : BitVec (8 * b))
      (hx : InRange c.dst c.size x) : ¬ InRange table (tableSize bs) x :=
    (hdest.zstage c (hblob c hc) x hx).2.2.2
  refine confined_look_bind (hh.hdrField hb .magic m) ?_
  refine confined_look_bind (hh.hdrField hb .version m) ?_
  refine confined_ite (fun _ => confined_pure _) (fun _ => ?_)
  refine confined_look_bind hi.consoleInit ?_
  refine he.touch_bind _ ?_
  refine confined_ite (fun _ => confined_pure _) (fun _ => ?_)
  refine (bannerProg_confined he env.banner).bind ?_
  rw [run_bannerProg]
  refine he.touch_bind _ ?_
  refine he.touch_bind _ ?_
  -- the memory in which the blob table is read
  generalize hm1 : env.touch _ (env.touch _ _) = m1
  have hown : Within env.own m m1 := by
    rw [← hm1]
    exact (env.within _ _).trans ((banner_within env _ _).trans
      ((env.within _ _).trans (env.within _ _)))
  have hbs1 : BlobsAt m1 table bs :=
    hbs.congr hfit (fun x hx => hown x (hsrc.constant x (Or.inr hx)))
  have hblobs : (copyBlobsProg env table fuel).Confined foreign own m1 :=
    copyBlobsProg_confined he bs fuel table hbs1 hfit
      (fun x hx => ⟨hsrc.constant x (Or.inr hx), hi.constant x (Or.inr hx)⟩) happart
      (fun c hc => hi.copyApart hdest c (hblob c hc))
  refine hblobs.bind (confined_ite (fun hend => ?_) (fun _ => confined_pure _))
  generalize hm2 : ((copyBlobsProg env table fuel).run m1).2 = m2
  have hrun : copyBlobs env table fuel m1 = some m2 := by
    rw [run_copyBlobsProg, if_pos hend, hm2]
  have hperforms : Performs env.own (bs.map (blobCopy b)) m m2 :=
    (copyBlobs_performs bs fuel table hbs1 hfit (fun x hx => hsrc.constant x (Or.inr hx)) happart
      (fun c hc => ⟨hdest.size_lt c (hblob c hc), hdest.forward hsrc c (hblob c hc)⟩)
      hrun).after hown
  obtain ⟨_, hfdt, hnext⟩ := lastCopies_kept hb hdest hsrc hperforms
  apply finishProg_confined he hb hh
  · rw [hfdt]
    exact hi.copyApart hdest _ (hlast _ (by simp))
  · rw [hnext]
    exact hi.copyApart hdest _ (hlast _ (by simp))
  · rw [hfdt]
    exact fun x hx => (hdest.zstage _ (hlast _ (by simp)) x hx).2.2.1

end Confined

end ZStage.Main
