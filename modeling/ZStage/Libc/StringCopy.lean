import ZStage.Libc.Strings
import ZStage.Main.Handover

/-!
`strcpy` and `strncpy` of `firmware/string.c`. Both stop in front of the terminating
zero and write nothing behind the characters, so the destination is a string only
where it already held the zeros.
-/

namespace ZStage.Libc

open ZStage.Lib.ByteMemory ZStage.Lib.CString ZStage.Lib.Trace ZStage.Main

variable {w : Nat}

/-- `while (*src != '\0') *dest++ = *src++;`. -/
def strcpyLoop (dest src : BitVec w) (m : Memory w) : Nat → Option (Memory w)
  | 0 => none
  | fuel + 1 =>
    if m src ≠ 0 then
      strcpyLoop (dest + 1) (src + 1) (fun x => if x = dest then m src else m x) fuel
    else some m

/-- `strcpy`: the pointer returned and the memory. -/
def strcpy (dest src : BitVec w) (m : Memory w) (fuel : Nat) : Option (BitVec w × Memory w) :=
  (strcpyLoop dest src m fuel).map fun m => (dest, m)

/-- `while (count-- && *src != '\0') *dest++ = *src++;`. -/
def strncpyLoop (dest src : BitVec w) (m : Memory w) : Nat → Memory w
  | 0 => m
  | count + 1 =>
    if m src ≠ 0 then
      strncpyLoop (dest + 1) (src + 1) (fun x => if x = dest then m src else m x) count
    else m

def strncpy (dest src : BitVec w) (m : Memory w) (count : Nat) : BitVec w × Memory w :=
  (dest, strncpyLoop dest src m count)

section Loops

variable {m : Memory w} {dest src : BitVec w} {n : Nat}

/-- The next round finds the rest of the string, and its ranges as far apart. -/
theorem copy_step {k : Nat} (hsrc : Terminated (bytesAt m src) (n + 1))
    (hdisj : Disjoint dest (k + 1) src (n + 2)) :
    m src ≠ 0 ∧
    Terminated (bytesAt (fun x => if x = dest then m src else m x) (src + 1)) n ∧
    Disjoint (dest + 1) k (src + 1) (n + 1) := by
  have hfits := hdisj.lt (Nat.succ_pos k)
  have hfits' := hdisj.symm.lt (Nat.succ_pos (n + 1))
  have hrest (i : Nat) (hi : i ≤ n) :
      bytesAt (fun x => if x = dest then m src else m x) (src + 1) i =
        bytesAt m src (i + 1) := by
    have hshift : src + 1 + BitVec.ofNat w i = src + BitVec.ofNat w (i + 1) := by
      rw [Nat.add_comm i 1, BitVec.ofNat_add, BitVec.add_assoc]
      rfl
    have hne : src + BitVec.ofNat w (i + 1) ≠ dest := by
      intro heq
      apply hdisj dest (inRange_self dest (Nat.succ_pos k))
      rw [← heq]
      exact inRange_add src (n + 2) (i + 1) (by omega) (by omega)
    simp only [bytesAt, hshift, if_neg hne]
  refine ⟨?_, ⟨?_, ?_⟩, ?_⟩
  · have hfirst := hsrc.body 0 (Nat.succ_pos n)
    simpa [bytesAt] using hfirst
  · intro i hi
    rw [hrest i (by omega)]
    exact hsrc.body (i + 1) (by omega)
  · rw [hrest n le_rfl]
    exact hsrc.nul
  · intro x hx hx'
    apply hdisj x
    · exact inRange_mono (show 1 + k ≤ k + 1 by omega) (by omega) hx
    · exact inRange_mono (show 1 + (n + 1) ≤ n + 2 by omega) (by omega) hx'

theorem bytesAt_zero (hsrc : Terminated (bytesAt m src) 0) : m src = 0 := by
  have hnul := hsrc.nul
  simpa [bytesAt] using hnul

theorem strcpyLoop_eq (hsrc : Terminated (bytesAt m src) n) (hdisj : Disjoint dest n src (n + 1))
    {fuel : Nat} (hfuel : n < fuel) : strcpyLoop dest src m fuel = some (memcpy dest src n m) := by
  induction n generalizing m dest src fuel with
  | zero =>
      cases fuel with
      | zero => omega
      | succ fuel => simp [strcpyLoop, bytesAt_zero hsrc, memcpy]
  | succ n ih =>
      cases fuel with
      | zero => omega
      | succ fuel =>
          obtain ⟨hbody, hrest, hapart⟩ := copy_step hsrc hdisj
          rw [strcpyLoop, if_pos hbody, ih hrest hapart (by omega), memcpy]

theorem strncpyLoop_eq (hsrc : Terminated (bytesAt m src) n) {count : Nat}
    (hdisj : Disjoint dest (min n count) src (n + 1)) :
    strncpyLoop dest src m count = memcpy dest src (min n count) m := by
  induction count generalizing m dest src n with
  | zero => simp [strncpyLoop, memcpy]
  | succ count ih =>
      cases n with
      | zero => simp [strncpyLoop, bytesAt_zero hsrc, memcpy]
      | succ n =>
          rw [Nat.succ_min_succ] at hdisj ⊢
          obtain ⟨hbody, hrest, hapart⟩ := copy_step hsrc hdisj
          rw [strncpyLoop, if_pos hbody, ih hrest hapart, memcpy]

end Loops

/-- The string at `src` is also at `dest`, its zero included, and nothing else has changed. -/
structure IsCopy (m m' : Memory w) (dest src : BitVec w) (n : Nat) : Prop where
  bytes : ∀ i, i ≤ n → m' (dest + BitVec.ofNat w i) = m (src + BitVec.ofNat w i)
  equal : ∀ fuel, n < fuel → (strcmp (bytesAt m' dest) (bytesAt m' src) fuel).value = some 0
  length : ∀ fuel, n < fuel → (strlen (bytesAt m' dest) fuel).value = some n
  frame : ∀ x, ¬ InRange dest (n + 1) x → m' x = m x

/-- The string at `src`, cut at `count`, is at `dest` with zeros up to `count`, and nothing else
has changed. -/
structure IsPadded (m m' : Memory w) (dest src : BitVec w) (n count : Nat) : Prop where
  bytes : ∀ i, i < count →
    m' (dest + BitVec.ofNat w i) = if i < n then m (src + BitVec.ofNat w i) else 0
  frame : ∀ x, ¬ InRange dest count x → m' x = m x

section Results

variable {m : Memory w} {dest src : BitVec w} {n : Nat}

theorem move_behind {k i : Nat} (hk : k ≤ i) (hi : i < 2 ^ w) :
    move dest src k m (dest + BitVec.ofNat w i) = m (dest + BitVec.ofNat w i) := by
  apply move_of_not_inRange
  have hoff : dest + BitVec.ofNat w i - dest = BitVec.ofNat w i := by ring
  unfold InRange
  rw [hoff, BitVec.toNat_ofNat, Nat.mod_eq_of_lt hi]
  omega

/-- `strcpy` returns, with the characters copied and the byte behind them as it was. -/
theorem strcpy_eq_move (hsrc : Terminated (bytesAt m src) n)
    (hdisj : Disjoint dest (n + 1) src (n + 1)) {fuel : Nat} (hfuel : n < fuel) :
    strcpy dest src m fuel = some (dest, move dest src n m) := by
  have hless : Disjoint dest n src (n + 1) := fun x hx => hdisj x (Nat.lt_succ_of_lt hx)
  have hfits := hdisj.symm.lt (Nat.succ_pos n)
  have hforward : (src - dest).toNat + n ≤ 2 ^ w := by
    have hsafe := forward_safe dest src (n + 1) (Or.inl hdisj)
    omega
  rw [strcpy, strcpyLoop_eq hsrc hless hfuel, memcpy_eq_move dest src n m hforward, Option.map_some]

/-- `strcpy` makes a copy of the string exactly when a zero is already behind it. -/
theorem strcpy_isCopy_iff (hsrc : Terminated (bytesAt m src) n)
    (hdisj : Disjoint dest (n + 1) src (n + 1)) :
    (∃ m', (∀ fuel, n < fuel → strcpy dest src m fuel = some (dest, m')) ∧
        IsCopy m m' dest src n) ↔
      m (dest + BitVec.ofNat w n) = 0 := by
  have hfits := hdisj.symm.lt (Nat.succ_pos n)
  have hlast : move dest src n m (dest + BitVec.ofNat w n) = m (dest + BitVec.ofNat w n) :=
    move_behind le_rfl (by omega)
  constructor
  · rintro ⟨m', hruns, hcopy⟩
    have hrun := hruns (n + 1) (Nat.lt_succ_self n)
    rw [strcpy_eq_move hsrc hdisj (Nat.lt_succ_self n), Option.some.injEq, Prod.mk.injEq] at hrun
    rw [← hlast, hrun.2, hcopy.bytes n le_rfl]
    exact hsrc.nul
  · intro hzero
    have hbytes (i : Nat) (hi : i ≤ n) :
        move dest src n m (dest + BitVec.ofNat w i) = m (src + BitVec.ofNat w i) := by
      rcases Nat.lt_or_eq_of_le hi with hlt | rfl
      · exact move_inside dest src n i m hlt (by omega)
      · rw [hlast, hzero]
        exact hsrc.nul.symm
    have hstring : Terminated (bytesAt (move dest src n m) dest) n := by
      constructor
      · intro i hi
        rw [bytesAt, hbytes i (Nat.le_of_lt hi)]
        exact hsrc.body i hi
      · rw [bytesAt, hbytes n le_rfl]
        exact hsrc.nul
    have hkept (i : Nat) (hi : i ≤ n) :
        bytesAt (move dest src n m) src i = bytesAt (move dest src n m) dest i := by
      rw [bytesAt, bytesAt, hbytes i hi]
      apply move_of_not_inRange
      intro hin
      exact hdisj _ (Nat.lt_succ_of_lt hin)
        (inRange_add src (n + 1) i (by omega) (by omega))
    refine ⟨move dest src n m, fun fuel hfuel => strcpy_eq_move hsrc hdisj hfuel, ?_⟩
    constructor
    · exact hbytes
    · exact fun fuel hfuel => strcmp_of_eq hstring hkept hfuel
    · exact fun fuel hfuel => strlen_value hstring hfuel
    · intro x hx
      exact move_of_not_inRange dest src x n m (fun hin => hx (Nat.lt_succ_of_lt hin))

theorem strncpy_isPadded_iff (hsrc : Terminated (bytesAt m src) n) {count : Nat}
    (hdisj : Disjoint dest count src (n + 1)) :
    IsPadded m (strncpy dest src m count).2 dest src n count ↔
      ∀ i, n ≤ i → i < count → m (dest + BitVec.ofNat w i) = 0 := by
  have hfits := hdisj.symm.lt (Nat.succ_pos n)
  have hless : Disjoint dest (min n count) src (n + 1) :=
    fun x hx => hdisj x (Nat.lt_of_lt_of_le hx (Nat.min_le_right n count))
  have hforward : (src - dest).toNat + min n count ≤ 2 ^ w := by
    apply forward_safe
    exact Or.inl fun x hx hx' => hless x hx (Nat.lt_of_lt_of_le hx' (by omega))
  have hmove : (strncpy dest src m count).2 = move dest src (min n count) m := by
    rw [strncpy, strncpyLoop_eq hsrc hless, memcpy_eq_move dest src _ m hforward]
  have hbehind (i : Nat) (hi : n ≤ i) (hcount : i < count) :
      move dest src (min n count) m (dest + BitVec.ofNat w i) = m (dest + BitVec.ofNat w i) :=
    move_behind (by omega) (by omega)
  rw [hmove]
  constructor
  · intro hpadded i hi hcount
    have hbyte := hpadded.bytes i hcount
    rw [if_neg (Nat.not_lt.mpr hi)] at hbyte
    rw [← hbehind i hi hcount, hbyte]
  · intro hzeros
    constructor
    · intro i hcount
      split
      · rename_i hlt
        exact move_inside dest src _ i m (by omega) (by omega)
      · rename_i hge
        rw [hbehind i (Nat.not_lt.mp hge) hcount]
        exact hzeros i (Nat.not_lt.mp hge) hcount
    · intro x hx
      apply move_of_not_inRange
      exact fun hin => hx (Nat.lt_of_lt_of_le hin (Nat.min_le_right n count))

/-- Both functions leave the C string behind exactly when the destination already holds the
zeros that they do not write. -/
theorem copies_string_iff (hsrc : Terminated (bytesAt m src) n) :
    (Disjoint dest (n + 1) src (n + 1) →
      ((∃ m', (∀ fuel, n < fuel → strcpy dest src m fuel = some (dest, m')) ∧
          IsCopy m m' dest src n) ↔
        m (dest + BitVec.ofNat w n) = 0)) ∧
    ∀ count, Disjoint dest count src (n + 1) →
      (IsPadded m (strncpy dest src m count).2 dest src n count ↔
        ∀ i, n ≤ i → i < count → m (dest + BitVec.ofNat w i) = 0) :=
  ⟨strcpy_isCopy_iff hsrc, fun _ => strncpy_isPadded_iff hsrc⟩

end Results

/-- The string `"a"` at `0x10`, and bytes that are not zero everywhere else. -/
def dirtyMemory : Memory 8 := fun x => if x = 0x10 then 97 else if x = 0x11 then 0 else 0xff

theorem dirtyMemory_string : Terminated (bytesAt dirtyMemory 0x10) 1 := by
  constructor <;> decide

theorem copies_string_over_zeros :
    ∃ m', (∀ fuel, 1 < fuel →
        strcpy 0x20 0x10 (fun x => if x = 0x21 then 0 else dirtyMemory x) fuel =
          some (0x20, m')) ∧
      IsCopy (fun x => if x = 0x21 then 0 else dirtyMemory x) m' 0x20 0x10 1 :=
  ((@copies_string_iff 8 (fun x => if x = 0x21 then 0 else dirtyMemory x) 0x20 0x10 1
    (by constructor <;> decide)).1
      (disjoint_of_dist _ _ _ _ (by decide) (by decide))).mpr (by decide)

/-- Over other bytes neither function leaves a string behind. -/
theorem dirty_destination_kept :
    Terminated (bytesAt dirtyMemory 0x10) 1 ∧ Disjoint (0x20 : BitVec 8) 2 0x10 2 ∧
      (¬ ∃ m', (∀ fuel, 1 < fuel → strcpy 0x20 0x10 dirtyMemory fuel = some (0x20, m')) ∧
        IsCopy dirtyMemory m' 0x20 0x10 1) ∧
      ¬ IsPadded dirtyMemory (strncpy 0x20 0x10 dirtyMemory 2).2 0x20 0x10 1 2 := by
  have hdisj : Disjoint (0x20 : BitVec 8) 2 0x10 2 :=
    disjoint_of_dist _ _ _ _ (by decide) (by decide)
  refine ⟨dirtyMemory_string, hdisj, ?_, ?_⟩
  · rw [strcpy_isCopy_iff dirtyMemory_string hdisj]
    decide
  · rw [strncpy_isPadded_iff dirtyMemory_string hdisj]
    intro hzeros
    have hbyte := hzeros 1 le_rfl (by decide)
    revert hbyte
    decide

end ZStage.Libc
