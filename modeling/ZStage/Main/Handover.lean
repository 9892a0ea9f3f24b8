import ZStage.Head.BootSystem
import ZStage.Main.ZstageMain

/-!
The memory that the next booting stage finds. `zstage_main` makes the copies of
the blob table, then the one of the FDT and the one of the next stage, in this
order and through one memory; the results say for which layouts every destination
holds the bytes that its source held at the start.
-/

namespace ZStage.Main

open ZStage.Lib.ByteMemory ZStage.Lib.CopySequence

variable {b : Nat}

/-- The blob table: entries of non-zero size up to the sentinel. -/
def BlobsAt (m : Memory (8 * b)) (blobs : BitVec (8 * b)) : List Blob → Prop
  | [] => (readBlob m blobs).size = 0
  | x :: xs => readBlob m blobs = x ∧ x.size ≠ 0 ∧
      BlobsAt m (blobs + BitVec.ofNat (8 * b) blobSize) xs

/-- The length of a blob table with its sentinel. -/
def tableSize (bs : List Blob) : Nat := blobSize * (bs.length + 1)

def blobCopy (b : Nat) (x : Blob) : Copy (8 * b) := ⟨ptr b x.dstAddr, ptr b x.srcAddr, x.size⟩

def fdtCopy (m : Memory (8 * b)) (bootArg1 hdr : BitVec (8 * b)) : Copy (8 * b) :=
  ⟨ptr b (hdrField m hdr .nextFdtAddr), bootArg1, fdtTotalsize m bootArg1⟩

def nextCopy (m : Memory (8 * b)) (hdr : BitVec (8 * b)) : Copy (8 * b) :=
  ⟨ptr b (hdrField m hdr .nextRunAddr), ptr b (hdrField m hdr .nextLoadAddr),
    hdrField m hdr .nextSize⟩

/-- All copies, in the order in which they are made. -/
def copies (m : Memory (8 * b)) (bootArg1 hdr : BitVec (8 * b)) (bs : List Blob) :
    List (Copy (8 * b)) :=
  bs.map (blobCopy b) ++ [fdtCopy m bootArg1 hdr, nextCopy m hdr]

/-- Where the destinations may lie: apart from one another, from zStage and from the
sources of later copies, and not above the source they share bytes with. -/
structure Destinations (env : Env b) (m : Memory (8 * b)) (bootArg1 hdr table : BitVec (8 * b))
    (bs : List Blob) : Prop where
  apart : (copies m bootArg1 hdr bs).Pairwise fun c d => Disjoint c.dst c.size d.dst d.size
  later_sources :
    (copies m bootArg1 hdr bs).Pairwise fun c d => Disjoint c.dst c.size d.src d.size
  own_source : ∀ c ∈ copies m bootArg1 hdr bs,
    Disjoint c.dst c.size c.src c.size ∨ c.dst.toNat ≤ c.src.toNat
  zstage : ∀ c ∈ copies m bootArg1 hdr bs, ∀ x, InRange c.dst c.size x →
    ¬ env.code x ∧ ¬ env.data x ∧ ¬ InRange hdr headerSize x ∧ ¬ InRange table (tableSize bs) x

/-- What the layout needs beyond that: no copy reads or writes memory that zStage
itself writes meanwhile, no source reaches round the top of the address space, and
an FDT is at least as long as the two words of its header that are read. -/
structure Sources (env : Env b) (m : Memory (8 * b)) (bootArg1 hdr table : BitVec (8 * b))
    (bs : List Blob) : Prop where
  own : ∀ c ∈ copies m bootArg1 hdr bs, ∀ x, InRange c.src c.size x → ¬ env.own x
  device : ∀ c ∈ copies m bootArg1 hdr bs, ∀ x, InRange c.dst c.size x → ¬ env.device x
  top : ∀ c ∈ copies m bootArg1 hdr bs, c.src.toNat + c.size ≤ 2 ^ (8 * b)
  constant : ∀ x, InRange hdr headerSize x ∨ InRange table (tableSize bs) x → ¬ env.own x
  fdt : 8 ≤ fdtTotalsize m bootArg1

section Memcpy

variable {w : Nat}

/-- The byte loop is the ascending chunk loop with chunks of one byte. -/
theorem memcpy_eq_copyUp (dest src : BitVec w) (count : Nat) (m : Memory w) :
    memcpy dest src count m = copyUp 1 dest src count m := by
  induction count generalizing dest src m with
  | zero => rfl
  | succ count ih =>
      rw [memcpy, set_eq_move, ih, copyUp_head]
      rfl

/-- The byte loop computes the simultaneous move wherever a forward copy is safe. -/
theorem memcpy_eq_move (dest src : BitVec w) (count : Nat) (m : Memory w)
    (hsafe : (src - dest).toNat + count ≤ 2 ^ w) :
    memcpy dest src count m = move dest src count m := by
  rw [memcpy_eq_copyUp, copyUp_eq_move 1 dest src count m (by omega), Nat.one_mul]

end Memcpy

section Reads

variable {m m' : Memory (8 * b)}

theorem hdrField_congr {hdr : BitVec (8 * b)} (hb : headerSize ≤ 2 ^ (8 * b)) (f : HeaderField)
    (h : ∀ x, InRange hdr headerSize x → m' x = m x) : hdrField m' hdr f = hdrField m hdr f := by
  apply loadLE_congr
  intro i hi
  apply h
  rw [add_assoc, ← BitVec.ofNat_add]
  apply inRange_add
  · cases f <;> simp only [HeaderField.width, HeaderField.offset, headerSize] at hi ⊢ <;> omega
  · cases f <;> simp only [HeaderField.width, HeaderField.offset, headerSize] at hi hb ⊢ <;> omega

theorem readBlob_congr {blobs : BitVec (8 * b)} (hb : blobSize ≤ 2 ^ (8 * b))
    (h : ∀ x, InRange blobs blobSize x → m' x = m x) : readBlob m' blobs = readBlob m blobs := by
  have hword (k : Nat) (hk : k + 8 ≤ blobSize) :
      loadLE m' (blobs + BitVec.ofNat (8 * b) k) 8 =
        loadLE m (blobs + BitVec.ofNat (8 * b) k) 8 := by
    apply loadLE_congr
    intro i hi
    apply h
    rw [add_assoc, ← BitVec.ofNat_add]
    exact inRange_add _ _ _ (by omega) (by omega)
  have hsrc := hword 0 (by decide)
  have hdst := hword 8 (by decide)
  have hsize := hword 16 (by decide)
  simp only [readBlob, hsrc, hdst, hsize]

theorem BlobsAt.congr {blobs : BitVec (8 * b)} {bs : List Blob} (hbs : BlobsAt m blobs bs)
    (hfit : tableSize bs ≤ 2 ^ (8 * b))
    (h : ∀ x, InRange blobs (tableSize bs) x → m' x = m x) : BlobsAt m' blobs bs := by
  induction bs generalizing blobs with
  | nil =>
      have hsame : readBlob m' blobs = readBlob m blobs := readBlob_congr hfit h
      simp only [BlobsAt, hsame]
      exact hbs
  | cons x xs ih =>
      obtain ⟨hx, hsize, hrest⟩ := hbs
      have hlen : tableSize (x :: xs) = blobSize + tableSize xs := by
        simp only [tableSize, List.length_cons]
        ring
      rw [hlen] at hfit h
      have hsame : readBlob m' blobs = readBlob m blobs := readBlob_congr (by omega)
        (fun y hy => h y (Nat.lt_add_right _ hy))
      refine ⟨hsame.trans hx, hsize, ih hrest (by omega) ?_⟩
      intro y hy
      exact h y (inRange_mono le_rfl hfit hy)

theorem fdt32_congr {a : BitVec (8 * b)} (hb : 4 ≤ 2 ^ (8 * b))
    (h : ∀ x, InRange a 4 x → m' x = m x) : fdt32 m' a = fdt32 m a := by
  have hbyte (i : Nat) (hi : i < 4) :
      m' (a + BitVec.ofNat (8 * b) i) = m (a + BitVec.ofNat (8 * b) i) :=
    h _ (inRange_add a 4 i hi (by omega))
  have h0 := hbyte 0 (by decide)
  have h1 := hbyte 1 (by decide)
  have h2 := hbyte 2 (by decide)
  have h3 := hbyte 3 (by decide)
  simp only [fdt32, h0, h1, h2, h3]

theorem headerSize_le (hb : b = 4 ∨ b = 8) : headerSize ≤ 2 ^ (8 * b) := by
  rcases hb with rfl | rfl <;> decide

theorem fdtWords_congr (hb : b = 4 ∨ b = 8) {bootArg1 : BitVec (8 * b)}
    (h : ∀ x, InRange bootArg1 8 x → m' x = m x) :
    fdt32 m' bootArg1 = fdt32 m bootArg1 ∧ fdtTotalsize m' bootArg1 = fdtTotalsize m bootArg1 := by
  have height : 8 ≤ 2 ^ (8 * b) := Nat.le_trans (by decide) (headerSize_le hb)
  constructor
  · exact fdt32_congr (by omega) (fun x hx => h x (Nat.lt_of_lt_of_le hx (by decide)))
  · exact fdt32_congr (by omega) (fun x hx => h x (inRange_mono (by decide) height hx))

theorem hdrField_kept (hb : b = 4 ∨ b = 8) {own : BitVec (8 * b) → Prop} {hdr : BitVec (8 * b)}
    (hconst : ∀ x, InRange hdr headerSize x → ¬ own x) (hown : Within own m m')
    (f : HeaderField) : hdrField m' hdr f = hdrField m hdr f :=
  hdrField_congr (headerSize_le hb) f (fun x hx => hown x (hconst x hx))

theorem fdtWords_kept (hb : b = 4 ∨ b = 8) {own : BitVec (8 * b) → Prop}
    {bootArg1 : BitVec (8 * b)} (hfdt : ∀ x, InRange bootArg1 8 x → ¬ own x)
    (hown : Within own m m') :
    fdt32 m' bootArg1 = fdt32 m bootArg1 ∧ fdtTotalsize m' bootArg1 = fdtTotalsize m bootArg1 :=
  fdtWords_congr hb (fun x hx => hown x (hfdt x hx))

end Reads

section Runs

variable {env : Env b} {m m' : Memory (8 * b)} {bootArg1 hdr : BitVec (8 * b)}

theorem Env.within (env : Env b) (c : Call b) (m : Memory (8 * b)) :
    Within env.own m (env.touch c m) :=
  env.touch_within c m

theorem callMemcpy_eq (env : Env b) (m : Memory (8 * b)) (c : Copy (8 * b))
    (hsize : c.size < 2 ^ (8 * b))
    (hsafe : (c.src - c.dst).toNat + c.size ≤ 2 ^ (8 * b)) :
    callMemcpy env c.dst c.src (sizeT b c.size) m =
      move c.dst c.src c.size (env.touch .memcpy m) := by
  rw [callMemcpy, sizeT, Nat.mod_eq_of_lt hsize, memcpy_eq_move _ _ _ _ hsafe]

theorem copyBlobs_succ (env : Env b) (m : Memory (8 * b)) (blobs : BitVec (8 * b))
    (hsize : (readBlob m blobs).size ≠ 0) (fuel : Nat) :
    ∃ m1, Within env.own m m1 ∧ copyBlobs env blobs (fuel + 1) m =
      copyBlobs env (blobs + BitVec.ofNat (8 * b) blobSize) fuel
        (callMemcpy env (ptr b (readBlob m1 blobs).dstAddr) (ptr b (readBlob m1 blobs).srcAddr)
          (sizeT b (readBlob m1 blobs).size) m1) :=
  ⟨_, env.within _ _, by simp only [copyBlobs, ne_eq, hsize, not_false_eq_true, if_true]; rfl⟩

theorem copyBlobs_performs (bs : List Blob) (fuel : Nat) (blobs : BitVec (8 * b))
    (hbs : BlobsAt m blobs bs) (hfit : tableSize bs ≤ 2 ^ (8 * b))
    (hconst : ∀ x, InRange blobs (tableSize bs) x → ¬ env.own x)
    (happart : ∀ c ∈ bs.map (blobCopy b), ∀ x, InRange c.dst c.size x →
      ¬ InRange blobs (tableSize bs) x)
    (hsafe : ∀ c ∈ bs.map (blobCopy b), c.size < 2 ^ (8 * b) ∧
      (c.src - c.dst).toNat + c.size ≤ 2 ^ (8 * b))
    (hrun : copyBlobs env blobs fuel m = some m') :
    Performs env.own (bs.map (blobCopy b)) m m' := by
  induction bs generalizing fuel blobs m with
  | nil =>
      cases fuel with
      | zero => cases hrun
      | succ fuel =>
          simp only [BlobsAt] at hbs
          simp only [copyBlobs, hbs, ne_eq, not_true, if_false, Option.some.injEq] at hrun
          subst hrun
          exact .done (Within.refl _ _)
  | cons x xs ih =>
      have hlen : tableSize (x :: xs) = blobSize + tableSize xs := by
        simp only [tableSize, List.length_cons]
        ring
      rw [hlen] at hfit hconst happart
      rw [List.map_cons] at happart hsafe ⊢
      obtain ⟨hx, hnonzero, hrest⟩ := hbs
      obtain ⟨hsize, hforward⟩ := hsafe _ List.mem_cons_self
      cases fuel with
      | zero => cases hrun
      | succ fuel =>
          obtain ⟨m1, hown, hstep⟩ := copyBlobs_succ env m blobs
            (by rw [hx]; exact hnonzero) fuel
          have hagain : readBlob m1 blobs = x := by
            refine (readBlob_congr (by omega) ?_).trans hx
            intro y hy
            exact hown y (hconst y (Nat.lt_add_right _ hy))
          have hcopy := callMemcpy_eq env m1 (blobCopy b x) hsize hforward
          simp only [blobCopy] at hcopy
          rw [hstep, hagain, hcopy] at hrun
          have hown' := hown.trans (env.within .memcpy m1)
          refine .copy hown' ?_
          apply ih fuel (blobs + BitVec.ofNat (8 * b) blobSize) ?_ (by omega)
            (fun y hy => hconst y (inRange_mono le_rfl hfit hy))
            (fun c hc y hy hin => happart c (List.mem_cons_of_mem _ hc) y hy
              (inRange_mono le_rfl hfit hin))
            (fun c hc => hsafe c (List.mem_cons_of_mem _ hc)) hrun
          -- the rest of the table is read after the copy
          refine hrest.congr (by omega) ?_
          intro y hy
          have hy' : InRange blobs (blobSize + tableSize xs) y := inRange_mono le_rfl hfit hy
          rw [move_of_not_inRange]
          · exact hown' y (hconst y hy')
          · exact fun hin => happart _ List.mem_cons_self y hin hy'

theorem copyNextStage_performs (env : Env b) (m : Memory (8 * b)) (hb : b = 4 ∨ b = 8)
    (hconst : ∀ x, InRange hdr headerSize x → ¬ env.own x)
    (hsize : (nextCopy m hdr).size < 2 ^ (8 * b))
    (hsafe : ((nextCopy m hdr).src - (nextCopy m hdr).dst).toNat + (nextCopy m hdr).size ≤
      2 ^ (8 * b)) :
    Performs env.own [nextCopy m hdr] m (copyNextStage env hdr m) := by
  unfold copyNextStage
  split
  · have hown := env.within (.printf "zstage: copying %s (%lu bytes) to 0x%lx from 0x%lx\n"
      [.str "next stage", .num (hdrField m hdr .nextSize), .num (hdrField m hdr .nextRunAddr),
        .num (hdrField m hdr .nextLoadAddr)]) m
    have hfield := hdrField_kept hb hconst hown
    have hcopy := callMemcpy_eq env (env.touch (.printf
      "zstage: copying %s (%lu bytes) to 0x%lx from 0x%lx\n"
      [.str "next stage", .num (hdrField m hdr .nextSize), .num (hdrField m hdr .nextRunAddr),
        .num (hdrField m hdr .nextLoadAddr)]) m) (nextCopy m hdr) hsize hsafe
    simp only [nextCopy] at hcopy
    simp only [printf, hfield, hcopy]
    exact .copy (hown.trans (env.within .memcpy _)) (.done (Within.refl _ _))
  · rename_i hplace
    have hsame : (nextCopy m hdr).src = (nextCopy m hdr).dst := by
      simp only [nextCopy]
      rw [not_not.mp hplace]
    have hmove : move (nextCopy m hdr).dst (nextCopy m hdr).src (nextCopy m hdr).size m = m := by
      rw [hsame]
      exact move_self _ _ _
    refine .copy (Within.refl _ _) ?_
    rw [hmove]
    exact .done (Within.refl _ _)

/-- The end of `zstage_main` makes the copies of the FDT and of the next stage. -/
theorem finish_performs (hb : b = 4 ∨ b = 8)
    (hconst : ∀ x, InRange hdr headerSize x → ¬ env.own x)
    (hfdt : ∀ x, InRange bootArg1 8 x → ¬ env.own x)
    (happart : ∀ x, InRange (fdtCopy m bootArg1 hdr).dst (fdtCopy m bootArg1 hdr).size x →
      ¬ InRange hdr headerSize x)
    (hsafe : ∀ c ∈ [fdtCopy m bootArg1 hdr, nextCopy m hdr], c.size < 2 ^ (8 * b) ∧
      (c.src - c.dst).toNat + c.size ≤ 2 ^ (8 * b))
    (hrun : finish env bootArg1 hdr m = .returned m') :
    fdt32 m bootArg1 = fdtMagic ∧
      Performs env.own [fdtCopy m bootArg1 hdr, nextCopy m hdr] m m' := by
  obtain ⟨hfsize, hfsafe⟩ := hsafe (fdtCopy m bootArg1 hdr) (by simp)
  obtain ⟨hnsize, hnsafe⟩ := hsafe (nextCopy m hdr) (by simp)
  -- the memory in which `platform_prepare_fdt` reads the FDT header
  generalize hm1 : env.touch (.platformPrepareFdt bootArg1 hdr)
    (printf env "zstage: setup platform FDT at 0x%lx\n" [.num (hdrField m hdr .nextFdtAddr)] m) = m1
  have hown : Within env.own m m1 := by
    rw [← hm1]
    exact (env.within _ _).trans (env.within _ _)
  obtain ⟨hmagic, htotal⟩ := fdtWords_kept hb hfdt hown
  have hcopy := callMemcpy_eq env m1 (fdtCopy m bootArg1 hdr) hfsize hfsafe
  simp only [fdtCopy] at hcopy
  simp only [finish, platformPrepareFdt, platformFinalInit, hm1, hmagic, htotal,
    hdrField_kept hb hconst hown, hcopy] at hrun
  split at hrun
  · simp at hrun
  · rename_i hok
    have hok := not_not.mp hok
    simp only [ne_eq, not_true, if_false, Outcome.returned.injEq] at hrun
    refine ⟨hok, ?_⟩
    refine .copy (hown.trans (env.within .memcpy m1)) ?_
    generalize hm2 : move (fdtCopy m bootArg1 hdr).dst (fdtCopy m bootArg1 hdr).src
      (fdtCopy m bootArg1 hdr).size (env.touch .memcpy m1) = m2
    have hfield (f : HeaderField) : hdrField m2 hdr f = hdrField m hdr f := by
      apply hdrField_congr (headerSize_le hb)
      intro x hx
      rw [← hm2, move_of_not_inRange]
      · exact hown.trans (env.within .memcpy m1) x (hconst x hx)
      · exact fun hin => happart x hin hx
    have hnext : nextCopy m2 hdr = nextCopy m hdr := by
      simp only [nextCopy, hfield]
    have hlast := copyNextStage_performs env m2 hb hconst (by rw [hnext]; exact hnsize)
      (by rw [hnext]; exact hnsafe)
    rw [hnext] at hlast
    rw [← hrun]
    simp only [fdtCopy] at hm2
    simp only [hm2]
    exact hlast.append (.done ((env.within _ _).trans ((env.within _ _).trans (env.within _ _))))

theorem banner_within (env : Env b) (lines : List (Call b)) (m : Memory (8 * b)) :
    Within env.own m (lines.foldl (fun m line => env.touch line m) m) := by
  induction lines generalizing m with
  | nil => exact .refl _ _
  | cons line lines ih => exact (env.within line m).trans (ih _)

/-- Up to the blob table, `zstage_main` changes its own memory only. -/
theorem zstageMain_returned {fuel : Nat} {table : BitVec (8 * b)}
    (hret : zstageMain env fuel bootArg1 hdr table m = .returned m') :
    ∃ m1 m2, Within env.own m m1 ∧ copyBlobs env table fuel m1 = some m2 ∧
      finish env bootArg1 hdr m2 = .returned m' := by
  unfold zstageMain at hret
  simp only [platformEarlyInit, ne_eq, not_true, if_false] at hret
  split at hret
  · cases hret
  · split at hret
    · cases hret
    · split at hret
      · cases hret
      · rename_i m2 hblobs
        refine ⟨_, m2, ?_, hblobs, hret⟩
        exact (env.within _ _).trans
          ((banner_within env _ _).trans ((env.within _ _).trans (env.within _ _)))

/-- No destination is as long as the address space, since the header lies outside
all of them. -/
theorem Destinations.size_lt {table : BitVec (8 * b)} {bs : List Blob}
    (hdest : Destinations env m bootArg1 hdr table bs) (c : Copy (8 * b))
    (hc : c ∈ copies m bootArg1 hdr bs) : c.size < 2 ^ (8 * b) := by
  by_contra hge
  have hin : InRange c.dst c.size hdr := by
    have hlt := (hdr - c.dst).isLt
    unfold InRange
    omega
  apply (hdest.zstage c hc hdr hin).2.2.1
  unfold InRange
  rw [BitVec.sub_self]
  simp [headerSize]

theorem Destinations.table_le (hb : b = 4 ∨ b = 8) {table : BitVec (8 * b)} {bs : List Blob}
    (hdest : Destinations env m bootArg1 hdr table bs) (hbs : BlobsAt m table bs) :
    tableSize bs ≤ 2 ^ (8 * b) := by
  cases bs with
  | nil => rcases hb with rfl | rfl <;> decide
  | cons x xs =>
      by_contra hlt
      have hc : blobCopy b x ∈ copies m bootArg1 hdr (x :: xs) := by simp [copies]
      have hin : InRange (blobCopy b x).dst (blobCopy b x).size (blobCopy b x).dst := by
        have hsize := Nat.pos_of_ne_zero hbs.2.1
        unfold InRange
        rw [BitVec.sub_self]
        simpa [blobCopy] using hsize
      apply (hdest.zstage _ hc _ hin).2.2.2
      have hrange := ((blobCopy b x).dst - table).isLt
      unfold InRange
      omega

/-- A copy that the layout allows is safe for a forward loop. -/
theorem Destinations.forward {table : BitVec (8 * b)} {bs : List Blob}
    (hdest : Destinations env m bootArg1 hdr table bs)
    (hsrc : Sources env m bootArg1 hdr table bs) (c : Copy (8 * b))
    (hc : c ∈ copies m bootArg1 hdr bs) : (c.src - c.dst).toNat + c.size ≤ 2 ^ (8 * b) :=
  forward_safe _ _ _ ((hdest.own_source c hc).imp_right (fun hle => ⟨hle, hsrc.top c hc⟩))

theorem Destinations.ordered {table : BitVec (8 * b)} {bs : List Blob}
    (hdest : Destinations env m bootArg1 hdr table bs)
    (hsrc : Sources env m bootArg1 hdr table bs) :
    Ordered env.own (copies m bootArg1 hdr bs) where
  dests_apart := hdest.apart
  sources_kept := hdest.later_sources
  dest_own := fun c hc x hx hown =>
    hown.elim (hdest.zstage c hc x hx).2.1 (hsrc.device c hc x hx)
  source_own := hsrc.own
  size_le := fun c hc => Nat.le_of_lt (hdest.size_lt c hc)

theorem Sources.fdt_source {table : BitVec (8 * b)} {bs : List Blob}
    (hsrc : Sources env m bootArg1 hdr table bs) {x : BitVec (8 * b)}
    (hx : InRange bootArg1 8 x) :
    InRange (fdtCopy m bootArg1 hdr).src (fdtCopy m bootArg1 hdr).size x :=
  Nat.lt_of_lt_of_le hx hsrc.fdt

theorem Sources.fdt_own {table : BitVec (8 * b)} {bs : List Blob}
    (hsrc : Sources env m bootArg1 hdr table bs) (x : BitVec (8 * b))
    (hx : InRange bootArg1 8 x) : ¬ env.own x := by
  have hc : fdtCopy m bootArg1 hdr ∈ copies m bootArg1 hdr bs := by simp [copies]
  exact hsrc.own _ hc x (hsrc.fdt_source hx)

/-- The copies of the blobs leave the FDT header and the last two copies what they were. -/
theorem lastCopies_kept (hb : b = 4 ∨ b = 8) {table : BitVec (8 * b)} {bs : List Blob}
    (hdest : Destinations env m bootArg1 hdr table bs)
    (hsrc : Sources env m bootArg1 hdr table bs)
    (hperforms : Performs env.own (bs.map (blobCopy b)) m m') :
    fdt32 m' bootArg1 = fdt32 m bootArg1 ∧
      fdtCopy m' bootArg1 hdr = fdtCopy m bootArg1 hdr ∧ nextCopy m' hdr = nextCopy m hdr := by
  have hfield (f : HeaderField) : hdrField m' hdr f = hdrField m hdr f := by
    apply hdrField_congr (headerSize_le hb)
    intro x hx
    apply hperforms.frame x (hsrc.constant x (Or.inl hx))
    exact fun c hc hdst => (hdest.zstage c (List.mem_append_left _ hc) x hdst).2.2.1 hx
  have hkept (x : BitVec (8 * b)) (hx : InRange bootArg1 8 x) : m' x = m x := by
    apply hperforms.frame x (hsrc.fdt_own x hx)
    intro c hc hdst
    have hlater := (List.pairwise_append.mp hdest.later_sources).2.2 c hc (fdtCopy m bootArg1 hdr)
    exact hlater (by simp) x hdst (hsrc.fdt_source hx)
  have hwords := fdtWords_congr hb hkept
  exact ⟨hwords.1, by simp only [fdtCopy, hfield, hwords.2], by simp only [nextCopy, hfield]⟩

theorem zstageMain_performs (hb : b = 4 ∨ b = 8) {fuel : Nat} {table : BitVec (8 * b)}
    {bs : List Blob} (hbs : BlobsAt m table bs) (hdest : Destinations env m bootArg1 hdr table bs)
    (hsrc : Sources env m bootArg1 hdr table bs)
    (hret : zstageMain env fuel bootArg1 hdr table m = .returned m') :
    fdt32 m bootArg1 = fdtMagic ∧ Performs env.own (copies m bootArg1 hdr bs) m m' := by
  obtain ⟨m1, m2, hown, hblobs, hfinish⟩ := zstageMain_returned hret
  have hin (c : Copy (8 * b)) (hc : c ∈ bs.map (blobCopy b)) : c ∈ copies m bootArg1 hdr bs :=
    List.mem_append_left _ hc
  have hlast (c : Copy (8 * b)) (hc : c ∈ [fdtCopy m bootArg1 hdr, nextCopy m hdr]) :
      c ∈ copies m bootArg1 hdr bs := List.mem_append_right _ hc
  have hfit := hdest.table_le hb hbs
  have hbs1 : BlobsAt m1 table bs :=
    hbs.congr hfit (fun x hx => hown x (hsrc.constant x (Or.inr hx)))
  have hfirst : Performs env.own (bs.map (blobCopy b)) m m2 :=
    (copyBlobs_performs bs fuel table hbs1 hfit (fun x hx => hsrc.constant x (Or.inr hx))
      (fun c hc x hx => (hdest.zstage c (hin c hc) x hx).2.2.2)
      (fun c hc => ⟨hdest.size_lt c (hin c hc), hdest.forward hsrc c (hin c hc)⟩)
      hblobs).after hown
  obtain ⟨hmagic, hfdt, hnext⟩ := lastCopies_kept hb hdest hsrc hfirst
  obtain ⟨hok, hsecond⟩ := finish_performs hb (fun x hx => hsrc.constant x (Or.inl hx))
    hsrc.fdt_own
    (fun x hx => by
      rw [hfdt] at hx
      exact (hdest.zstage _ (hlast _ (by simp)) x hx).2.2.1)
    (by
      rw [hfdt, hnext]
      exact fun c hc => ⟨hdest.size_lt c (hlast c hc), hdest.forward hsrc c (hlast c hc)⟩)
    hfinish
  rw [hfdt, hnext] at hsecond
  exact ⟨hmagic.symm.trans hok, hfirst.append hsecond⟩

end Runs

/-- The memory handed to the next stage: each destination holds the bytes that its
source held when `zstage_main` was entered, and beside the destinations only
zStage's own memory and the console device have changed. -/
theorem zstageMain_hands_over (env : Env b) (hb : b = 4 ∨ b = 8) (fuel : Nat)
    (bootArg1 hdr table : BitVec (8 * b)) (m0 m : Memory (8 * b)) (bs : List Blob)
    (hbs : BlobsAt m0 table bs) (hdest : Destinations env m0 bootArg1 hdr table bs)
    (hsrc : Sources env m0 bootArg1 hdr table bs)
    (hret : zstageMain env fuel bootArg1 hdr table m0 = .returned m) :
    (∀ x ∈ bs, ∀ i, i < x.size → m (ptr b x.dstAddr + BitVec.ofNat (8 * b) i) =
      m0 (ptr b x.srcAddr + BitVec.ofNat (8 * b) i)) ∧
    fdt32 m0 bootArg1 = fdtMagic ∧
    (∀ i, i < fdtTotalsize m0 bootArg1 →
      m (ptr b (hdrField m0 hdr .nextFdtAddr) + BitVec.ofNat (8 * b) i) =
        m0 (bootArg1 + BitVec.ofNat (8 * b) i)) ∧
    (∀ i, i < hdrField m0 hdr .nextSize →
      m (ptr b (hdrField m0 hdr .nextRunAddr) + BitVec.ofNat (8 * b) i) =
        m0 (ptr b (hdrField m0 hdr .nextLoadAddr) + BitVec.ofNat (8 * b) i)) ∧
    (∀ x, (∀ c ∈ copies m0 bootArg1 hdr bs, ¬ InRange c.dst c.size x) → ¬ env.own x →
      m x = m0 x) := by
  obtain ⟨hmagic, hperforms⟩ := zstageMain_performs hb hbs hdest hsrc hret
  have hordered := hdest.ordered hsrc
  refine ⟨?_, hmagic, ?_, ?_, ?_⟩
  · intro x hx i hi
    have hc : blobCopy b x ∈ copies m0 bootArg1 hdr bs :=
      List.mem_append_left _ (List.mem_map_of_mem hx)
    exact hperforms.copied hordered _ hc i hi
  · intro i hi
    exact hperforms.copied hordered (fdtCopy m0 bootArg1 hdr) (by simp [copies]) i hi
  · intro i hi
    exact hperforms.copied hordered (nextCopy m0 hdr) (by simp [copies]) i hi
  · intro x hx hown
    exact hperforms.frame x hown hx

/-! ### Layouts that can be evaluated -/

/-- A 64-bit memory with a header at `0x1000` that sends the next stage from `0x5000`
to `0x6000` and the FDT of `0x3000` to `0x4000`, and with a table of one blob at
`0x2000`. -/
def sampleMemory (blob : Blob) : Memory (8 * 8) :=
  let word (n : Nat) (m : Memory (8 * 8)) (a : BitVec (8 * 8)) (v : Nat) := storeLE m a n v
  let m := word 4 (fun x => if x = 0xfffffffffffffff8 then 1 else 0) 0x1004 imageMagic
  let m := word 4 m 0x1008 imageVersion
  let m := word 8 m 0x1048 0x5000
  let m := word 8 m 0x1050 0x6000
  let m := word 8 m 0x1058 0x4000
  let m := word 8 m 0x1060 4
  let m := word 8 m 0x2000 blob.srcAddr
  let m := word 8 m 0x2008 blob.dstAddr
  let m := word 8 m 0x2010 blob.size
  -- the FDT header, with its bytes the other way round
  let m := word 4 m 0x3000 0xedfe0dd0
  word 4 m 0x3004 0x08000000

/-- zStage with its data in `[0x7000, 0x7010)` and its console device in
`[0x9000, 0x9008)`: the console probe stores the device that it has found, and
each line that is printed writes to the device. -/
def sampleEnv : Env 8 where
  code := fun _ => False
  data := InRange 0x7000 16
  device := InRange 0x9000 8
  touch := fun c m =>
    match c with
    | .consoleInit _ => storeLE m 0x7000 8 0x7008
    | .printf _ _ => storeLE m 0x9000 8 0x7a
    | _ => m
  consoleInit := fun _ _ => 0
  banner := []
  touch_within := by
    intro c m x hx
    simp only [not_or] at hx
    cases c with
    | consoleInit =>
        exact storeLE_of_not_inRange _ _ _ _ _
          (fun hin => hx.1 (Nat.lt_of_lt_of_le hin (by decide)))
    | printf => exact storeLE_of_not_inRange _ _ _ _ _ hx.2
    | platformEarlyInit | memcpy | platformPrepareFdt | platformFinalInit => rfl

/-- The copies of the sample are those of its blob, of the FDT and of the next stage. -/
def sampleCopies (blob : Blob) : List (Copy (8 * 8)) :=
  [blobCopy 8 blob, ⟨0x4000, 0x3000, 8⟩, ⟨0x6000, 0x5000, 4⟩]

theorem forall_sampleCopies {blob : Blob} {p : Copy (8 * 8) → Prop} :
    (∀ c ∈ sampleCopies blob, p c) ↔
      p (blobCopy 8 blob) ∧ p ⟨0x4000, 0x3000, 8⟩ ∧ p ⟨0x6000, 0x5000, 4⟩ := by
  simp only [sampleCopies, List.mem_cons, forall_eq_or_imp, List.not_mem_nil, false_imp_iff,
    implies_true, and_true]

theorem pairwise_sampleCopies {blob : Blob} {r : Copy (8 * 8) → Copy (8 * 8) → Prop} :
    (sampleCopies blob).Pairwise r ↔
      (r (blobCopy 8 blob) ⟨0x4000, 0x3000, 8⟩ ∧ r (blobCopy 8 blob) ⟨0x6000, 0x5000, 4⟩) ∧
        r ⟨0x4000, 0x3000, 8⟩ ⟨0x6000, 0x5000, 4⟩ := by
  simp only [sampleCopies, List.pairwise_cons, List.mem_cons, forall_eq_or_imp, List.not_mem_nil,
    false_imp_iff, implies_true, and_true, List.Pairwise.nil]

theorem sample_table (blob : Blob) (hread : readBlob (sampleMemory blob) 0x2000 = blob)
    (hsize : blob.size ≠ 0)
    (hend : (readBlob (sampleMemory blob) (0x2000 + BitVec.ofNat _ blobSize)).size = 0) :
    BlobsAt (sampleMemory blob) 0x2000 [blob] :=
  ⟨hread, hsize, hend⟩

def sampleTaken : List (BitVec (8 * 8) × Nat) :=
  [(0x4000, 8), (0x6000, 4), (0x3000, 8), (0x5000, 4), (0x7000, 16), (0x1000, 256), (0x2000, 64)]

/-- What is left to check of a blob's destination in the sample. -/
theorem sample_destinations (blob : Blob)
    (hcopies : copies (sampleMemory blob) 0x3000 0x1000 [blob] = sampleCopies blob)
    (hsource : Disjoint (blobCopy 8 blob).dst (blobCopy 8 blob).size
        (blobCopy 8 blob).src (blobCopy 8 blob).size ∨
      (blobCopy 8 blob).dst.toNat ≤ (blobCopy 8 blob).src.toNat)
    (hclear : ∀ r ∈ sampleTaken, (blobCopy 8 blob).size ≤ (r.1 - (blobCopy 8 blob).dst).toNat ∧
      (r.1 - (blobCopy 8 blob).dst).toNat + r.2 ≤ 2 ^ (8 * 8)) :
    Destinations sampleEnv (sampleMemory blob) 0x3000 0x1000 0x2000 [blob] := by
  have hother (a : BitVec (8 * 8)) (n : Nat) (hmem : (a, n) ∈ sampleTaken) :
      Disjoint (blobCopy 8 blob).dst (blobCopy 8 blob).size a n :=
    disjoint_of_dist _ _ _ _ (hclear _ hmem).1 (hclear _ hmem).2
  have hfar (a c : BitVec (8 * 8)) (n k : Nat) (hn : n ≤ (c - a).toNat)
      (hk : (c - a).toNat + k ≤ 2 ^ 64) : Disjoint a n c k := disjoint_of_dist a c n k hn hk
  have hdest (a : BitVec (8 * 8)) (n : Nat) (h1 : Disjoint a n 0x7000 16)
      (h2 : Disjoint a n 0x1000 256) (h3 : Disjoint a n 0x2000 64) (x : BitVec (8 * 8))
      (hx : InRange a n x) : ¬ sampleEnv.code x ∧ ¬ sampleEnv.data x ∧
        ¬ InRange 0x1000 headerSize x ∧ ¬ InRange 0x2000 (tableSize [blob]) x :=
    ⟨fun h => h, h1 x hx, h2 x hx, h3 x hx⟩
  constructor
  · rw [hcopies, pairwise_sampleCopies]
    exact ⟨⟨hother _ _ (by simp [sampleTaken]), hother _ _ (by simp [sampleTaken])⟩,
      hfar _ _ _ _ (by decide) (by decide)⟩
  · rw [hcopies, pairwise_sampleCopies]
    exact ⟨⟨hother _ _ (by simp [sampleTaken]), hother _ _ (by simp [sampleTaken])⟩,
      hfar _ _ _ _ (by decide) (by decide)⟩
  · rw [hcopies, forall_sampleCopies]
    exact ⟨hsource, Or.inl (hfar _ _ _ _ (by decide) (by decide)),
      Or.inl (hfar _ _ _ _ (by decide) (by decide))⟩
  · rw [hcopies, forall_sampleCopies]
    refine ⟨hdest _ _ (hother _ _ (by simp [sampleTaken])) (hother _ _ (by simp [sampleTaken]))
      (hother _ _ (by simp [sampleTaken])), ?_, ?_⟩
    · exact hdest _ _ (hfar _ _ _ _ (by decide) (by decide)) (hfar _ _ _ _ (by decide) (by decide))
        (hfar _ _ _ _ (by decide) (by decide))
    · exact hdest _ _ (hfar _ _ _ _ (by decide) (by decide)) (hfar _ _ _ _ (by decide) (by decide))
        (hfar _ _ _ _ (by decide) (by decide))

/-- One blob, moved up by 8 KiB. -/
theorem zstageMain_hands_over_sample :
    let blob : Blob := ⟨0x8000, 0xa000, 8⟩
    ∃ m, zstageMain sampleEnv 2 0x3000 0x1000 0x2000 (sampleMemory blob) = .returned m ∧
      ∀ i, i < 8 → m (ptr 8 blob.dstAddr + BitVec.ofNat (8 * 8) i) =
        sampleMemory blob (ptr 8 blob.srcAddr + BitVec.ofNat (8 * 8) i) := by
  intro blob
  have hreturns : (zstageMain sampleEnv 2 0x3000 0x1000 0x2000 (sampleMemory blob)).memory.isSome :=
    by decide +kernel
  have hcopies : copies (sampleMemory blob) 0x3000 0x1000 [blob] = sampleCopies blob := by
    decide +kernel
  have hdest := sample_destinations blob hcopies
    (Or.inl (disjoint_of_dist _ _ _ _ (by decide) (by decide))) (by decide +kernel)
  have hown (a : BitVec (8 * 8)) (n : Nat) (h1 : n ≤ (0x7000 - a).toNat)
      (h2 : (0x7000 - a).toNat + 16 ≤ 2 ^ (8 * 8)) (h3 : n ≤ (0x9000 - a).toNat)
      (h4 : (0x9000 - a).toNat + 8 ≤ 2 ^ (8 * 8)) (x : BitVec (8 * 8)) (hx : InRange a n x) :
      ¬ sampleEnv.own x := by
    rintro (hdata | hdevice)
    · exact disjoint_of_dist a 0x7000 n 16 h1 h2 x hx hdata
    · exact disjoint_of_dist a 0x9000 n 8 h3 h4 x hx hdevice
  have hsrc : Sources sampleEnv (sampleMemory blob) 0x3000 0x1000 0x2000 [blob] := by
    constructor
    · rw [hcopies, forall_sampleCopies]
      exact ⟨hown _ _ (by decide) (by decide) (by decide) (by decide),
        hown _ _ (by decide) (by decide) (by decide) (by decide),
        hown _ _ (by decide) (by decide) (by decide) (by decide)⟩
    · rw [hcopies, forall_sampleCopies]
      exact ⟨fun x hx h => hown _ _ (by decide) (by decide) (by decide) (by decide) x hx (Or.inr h),
        fun x hx h => hown _ _ (by decide) (by decide) (by decide) (by decide) x hx (Or.inr h),
        fun x hx h => hown _ _ (by decide) (by decide) (by decide) (by decide) x hx (Or.inr h)⟩
    · rw [hcopies, forall_sampleCopies]
      decide
    · rintro x (hx | hx)
      · exact hown 0x1000 256 (by decide) (by decide) (by decide) (by decide) x hx
      · exact hown 0x2000 64 (by decide) (by decide) (by decide) (by decide) x hx
    · decide +kernel
  cases hret : zstageMain sampleEnv 2 0x3000 0x1000 0x2000 (sampleMemory blob) with
  | returned m =>
      exact ⟨m, rfl, (zstageMain_hands_over sampleEnv (Or.inr rfl) 2 _ _ _ _ m [blob]
        (sample_table blob (by decide +kernel) (by decide) (by decide +kernel)) hdest hsrc hret).1
        blob (by simp)⟩
  | hang =>
      rw [hret] at hreturns
      cases hreturns
  | running =>
      rw [hret] at hreturns
      cases hreturns

/-- Whether the sample returns with another byte than the blob's own at `i`. -/
def lostAt (blob : Blob) (i : Nat) : Bool :=
  (zstageMain sampleEnv 2 0x3000 0x1000 0x2000 (sampleMemory blob)).memory.any fun m =>
    m (ptr 8 blob.dstAddr + BitVec.ofNat _ i) !=
      sampleMemory blob (ptr 8 blob.srcAddr + BitVec.ofNat _ i)

/-- A layout with allowed destinations after which a blob is not what it was. -/
def BlobLost (blob : Blob) : Prop :=
  BlobsAt (sampleMemory blob) 0x2000 [blob] ∧
    Destinations sampleEnv (sampleMemory blob) 0x3000 0x1000 0x2000 [blob] ∧
    ∃ i, i < blob.size ∧ lostAt blob i = true

/-- Three blobs that are lost: one that lies in zStage's data, one whose destination
is the console device, and one that reaches round the top of the address space
into a destination below it. -/
theorem blobs_lost :
    BlobLost ⟨0x7000, 0x8000, 8⟩ ∧ BlobLost ⟨0x8000, 0x9000, 8⟩ ∧
      BlobLost ⟨0xfffffffffffffff8, 0, 16⟩ := by
  refine ⟨⟨?_, ?_, 0, by decide, by decide +kernel⟩, ⟨?_, ?_, 0, by decide, by decide +kernel⟩,
    ⟨?_, ?_, 8, by decide, by decide +kernel⟩⟩
  · exact sample_table _ (by decide +kernel) (by decide) (by decide +kernel)
  · exact sample_destinations _ (by decide +kernel)
      (Or.inl (disjoint_of_dist _ _ _ _ (by decide) (by decide))) (by decide +kernel)
  · exact sample_table _ (by decide +kernel) (by decide) (by decide +kernel)
  · exact sample_destinations _ (by decide +kernel)
      (Or.inl (disjoint_of_dist _ _ _ _ (by decide) (by decide))) (by decide +kernel)
  · exact sample_table _ (by decide +kernel) (by decide) (by decide +kernel)
  · exact sample_destinations _ (by decide +kernel) (Or.inr (by decide)) (by decide +kernel)

end ZStage.Main
