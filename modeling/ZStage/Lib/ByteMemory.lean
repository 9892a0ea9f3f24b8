import Mathlib.Data.BitVec
import Mathlib.Tactic

/-!
Byte-addressed memories over a `w`-bit address space, with the operations that
bare-metal code makes on them: little-endian words, single chunk moves, and the
ascending and descending chunk loops a relocator or a `memcpy` runs. A range is
cyclic: it starts at an address and runs for a number of bytes, so no lemma
needs a separate rule for the top of the address space.

The main results say when a chunk loop over ranges that may overlap computes
the simultaneous move of the whole range (`copyUp_eq_move`,
`copyDown_eq_move`). The condition is one inequality on the cyclic distance
between the two ranges.
-/

namespace ZStage.Lib.ByteMemory

variable {w : Nat}

/-- A memory gives a byte at every address of the space. -/
abbrev Memory (w : Nat) := BitVec w → UInt8

/-- The address `x` is one of the `n` bytes from `a` on. -/
def InRange (a : BitVec w) (n : Nat) (x : BitVec w) : Prop :=
  (x - a).toNat < n

instance (a : BitVec w) (n : Nat) (x : BitVec w) : Decidable (InRange a n x) :=
  inferInstanceAs (Decidable ((x - a).toNat < n))

def Disjoint (a : BitVec w) (n : Nat) (b : BitVec w) (k : Nat) : Prop :=
  ∀ x, InRange a n x → ¬ InRange b k x

theorem Disjoint.symm {a b : BitVec w} {n k : Nat} (h : Disjoint a n b k) :
    Disjoint b k a n :=
  fun x hb ha => h x ha hb

/-! ### Address arithmetic -/

theorem toNat_add_ofNat (x : BitVec w) (i : Nat) (h : x.toNat + i < 2 ^ w) :
    (x + BitVec.ofNat w i).toNat = x.toNat + i := by
  have hi : (BitVec.ofNat w i).toNat = i := by
    rw [BitVec.toNat_ofNat, Nat.mod_eq_of_lt (by omega)]
  rw [BitVec.toNat_add_of_lt (by rw [hi]; exact h), hi]

theorem toNat_sub_cases (x y : BitVec w) :
    (x - y).toNat =
      if y.toNat ≤ x.toNat then x.toNat - y.toNat
      else 2 ^ w + x.toNat - y.toNat := by
  have hx := x.isLt
  have hy := y.isLt
  rw [BitVec.toNat_sub]
  split
  · rename_i hle
    have hsum : 2 ^ w - y.toNat + x.toNat = (x.toNat - y.toNat) + 2 ^ w := by omega
    rw [hsum, Nat.add_mod_right, Nat.mod_eq_of_lt (by omega)]
  · rw [Nat.mod_eq_of_lt (by omega)]
    omega

theorem toNat_sub_ofNat (x : BitVec w) (i : Nat) (hi : i ≤ 2 ^ w) :
    (x - BitVec.ofNat w i).toNat =
      if i ≤ x.toNat then x.toNat - i else 2 ^ w + x.toNat - i := by
  have hx := x.isLt
  rcases Nat.lt_or_ge i (2 ^ w) with hlt | hge
  · rw [toNat_sub_cases, BitVec.toNat_ofNat, Nat.mod_eq_of_lt hlt]
  · have heq : i = 2 ^ w := by omega
    subst heq
    have hzero : BitVec.ofNat w (2 ^ w) = 0 := by
      apply BitVec.eq_of_toNat_eq
      rw [BitVec.toNat_ofNat, Nat.mod_self]
      exact BitVec.toNat_zero.symm
    rw [hzero, sub_zero]
    split <;> omega

/-- The cyclic offset of `x` from `a + i` is its offset from `a`, less `i`. -/
theorem offset_add (a x : BitVec w) (i : Nat) (hi : i ≤ 2 ^ w) :
    (x - (a + BitVec.ofNat w i)).toNat =
      if i ≤ (x - a).toNat then (x - a).toNat - i
      else 2 ^ w + (x - a).toNat - i := by
  have hsub : x - (a + BitVec.ofNat w i) = (x - a) - BitVec.ofNat w i := by
    ring
  rw [hsub]
  exact toNat_sub_ofNat (x - a) i hi

/-- How far two offsets in one region are apart. -/
theorem offset_sub (a : BitVec w) {i j : Nat} (hij : i ≤ j) (hj : j < 2 ^ w) :
    (a + BitVec.ofNat w j - (a + BitVec.ofNat w i)).toNat = j - i := by
  have hsub : a + BitVec.ofNat w j - (a + BitVec.ofNat w i) = BitVec.ofNat w (j - i) := by
    rw [← BitVec.ofNat_sub_ofNat_of_le _ _ (by omega) hij]
    ring
  rw [hsub, BitVec.toNat_ofNat, Nat.mod_eq_of_lt (by omega)]

theorem toNat_add_mod {x y : BitVec w} {c : Nat} (hx : x.toNat % c = 0) (hy : y.toNat % c = 0)
    (hw : 2 ^ w % c = 0) : (x + y).toNat % c = 0 := by
  rw [BitVec.toNat_add, Nat.mod_mod_of_dvd _ (Nat.dvd_of_mod_eq_zero hw), Nat.add_mod, hx, hy,
    Nat.zero_mod]

theorem toNat_sub_mod {x y : BitVec w} {c : Nat} (hx : x.toNat % c = 0) (hy : y.toNat % c = 0)
    (hw : 2 ^ w % c = 0) : (x - y).toNat % c = 0 := by
  have hsub : (2 ^ w - y.toNat) % c = 0 := by
    apply Nat.mod_eq_zero_of_dvd
    exact Nat.dvd_sub (Nat.dvd_of_mod_eq_zero hw) (Nat.dvd_of_mod_eq_zero hy)
  rw [BitVec.toNat_sub, Nat.mod_mod_of_dvd _ (Nat.dvd_of_mod_eq_zero hw), Nat.add_mod, hsub, hx,
    Nat.zero_mod]

theorem add_offset (a x : BitVec w) : a + (x - a) = x := by
  rw [BitVec.add_comm, BitVec.sub_add_cancel]

theorem inRange_add (a : BitVec w) (n i : Nat) (hi : i < n) (hw : i < 2 ^ w) :
    InRange a n (a + BitVec.ofNat w i) := by
  have hsub : a + BitVec.ofNat w i - a = BitVec.ofNat w i := by
    rw [BitVec.add_comm, BitVec.add_sub_cancel]
  simp only [InRange, hsub, BitVec.toNat_ofNat]
  rw [Nat.mod_eq_of_lt hw]
  exact hi

theorem inRange_self (a : BitVec w) {n : Nat} (hn : 0 < n) : InRange a n a := by
  unfold InRange
  simpa using hn

/-- A range inside another one, `i` bytes from its start. -/
theorem inRange_mono {a x : BitVec w} {n i k : Nat} (hin : i + k ≤ n) (hn : n ≤ 2 ^ w)
    (h : InRange (a + BitVec.ofNat w i) k x) : InRange a n x := by
  have hx := (x - a).isLt
  unfold InRange at h ⊢
  rw [offset_add a x i (by omega)] at h
  split at h <;> omega

/-- A range that begins behind another one in the cyclic order, and ends before the
order comes round to it, shares no byte with it. -/
theorem disjoint_of_dist (a c : BitVec w) (n k : Nat) (hbehind : n ≤ (c - a).toNat)
    (hround : (c - a).toNat + k ≤ 2 ^ w) : Disjoint a n c k := by
  intro x hx hx'
  have hsub : x - c = (x - a) - (c - a) := by
    ring
  unfold InRange at hx hx'
  rw [hsub, toNat_sub_cases] at hx'
  split at hx' <;> omega

/-- A range that something lies outside of is not the whole address space. -/
theorem Disjoint.lt {a b : BitVec w} {n k : Nat} (h : Disjoint a n b k) (hn : 0 < n) :
    k < 2 ^ w := by
  by_contra hfull
  apply h a (inRange_self a hn)
  have hlt := (a - b).isLt
  unfold InRange
  omega

/-! ### Signed order

A signed branch orders two addresses by their signed values. It orders the
addresses of a range as the range runs when the range does not cross the sign
boundary. -/

theorem two_pow_eq (hpos : 0 < w) : 2 ^ w = 2 * 2 ^ (w - 1) := by
  rw [← Nat.pow_succ']
  congr 1
  omega

theorem toInt_add_ofNat (x : BitVec w) (i : Nat) (h : x.toInt + i < 2 ^ (w - 1)) :
    (x + BitVec.ofNat w i).toInt = x.toInt + i := by
  have hlow := BitVec.le_toInt x
  rcases Nat.eq_zero_or_pos w with rfl | hpos
  · have hx : x.toInt = 0 := by simp [BitVec.eq_nil x]
    have hi : i = 0 := by simp [hx] at h; omega
    subst hi
    simp
  · have hpow := two_pow_eq hpos
    have hcast : ((2 ^ (w - 1) : Nat) : Int) = 2 ^ (w - 1) := by push_cast; rfl
    rw [BitVec.toInt_add, BitVec.toInt_ofNat', Int.add_bmod_bmod]
    apply Int.bmod_eq_of_le
    · rw [hpow]
      push_cast
      omega
    · rw [hpow]
      push_cast
      omega

/-- Cyclic membership in a range that does not cross the sign boundary is
membership in an interval of signed values. -/
theorem inRange_iff_toInt (a x : BitVec w) (n : Nat) (h : a.toInt + n ≤ 2 ^ (w - 1)) :
    InRange a n x ↔ a.toInt ≤ x.toInt ∧ x.toInt < a.toInt + n := by
  have hx := x.isLt
  have ha := a.isLt
  have hlow := BitVec.le_toInt a
  have hsub := toNat_sub_cases x a
  rcases Nat.eq_zero_or_pos w with rfl | hpos
  · have hx0 : x = 0 := BitVec.eq_nil x
    have ha0 : a = 0 := BitVec.eq_nil a
    simp [InRange, hx0, ha0]
  · have hpow := two_pow_eq hpos
    have hcast : ((2 ^ (w - 1) : Nat) : Int) = 2 ^ (w - 1) := by push_cast; rfl
    have hxi := BitVec.toInt_eq_toNat_cond x
    have hai := BitVec.toInt_eq_toNat_cond a
    unfold InRange
    generalize 2 ^ (w - 1) = half at *
    split at hxi <;> split at hai <;> split at hsub <;> omega

/-- The cyclic distance up to an address that is not below in the signed order. -/
theorem toNat_sub_of_toInt_le (x a : BitVec w) (h : a.toInt ≤ x.toInt) :
    ((x - a).toNat : Int) = x.toInt - a.toInt := by
  have hx := x.isLt
  have ha := a.isLt
  have hsub := toNat_sub_cases x a
  have hxi := BitVec.toInt_eq_toNat_cond x
  have hai := BitVec.toInt_eq_toNat_cond a
  split at hxi <;> split at hai <;> split at hsub <;> omega

/-! ### Little-endian words -/

/-- The `n`-byte little-endian word at `a`. -/
def loadLE (m : Memory w) (a : BitVec w) : Nat → Nat
  | 0 => 0
  | n + 1 => (m a).toNat + 256 * loadLE m (a + 1) n

/-- Store the low `n` bytes of `v`, little-endian, from `a` on. -/
def storeLE (m : Memory w) (a : BitVec w) (n v : Nat) : Memory w :=
  fun x => if InRange a n x then UInt8.ofNat (v / 256 ^ (x - a).toNat) else m x

/-- Replace the `n` bytes from `dst` on by the bytes that stood from `src` on.
All of them are read before any of them is written. -/
def move (dst src : BitVec w) (n : Nat) (m : Memory w) : Memory w :=
  fun x => if InRange dst n x then m (src + (x - dst)) else m x

theorem storeLE_of_not_inRange (m : Memory w) (a x : BitVec w) (n v : Nat)
    (h : ¬ InRange a n x) : storeLE m a n v x = m x := by
  simp [storeLE, h]

theorem move_of_not_inRange (dst src x : BitVec w) (n : Nat) (m : Memory w)
    (h : ¬ InRange dst n x) : move dst src n m x = m x := by
  simp [move, h]

theorem move_inside (dst src : BitVec w) (n i : Nat) (m : Memory w)
    (hi : i < n) (hw : i < 2 ^ w) :
    move dst src n m (dst + BitVec.ofNat w i) = m (src + BitVec.ofNat w i) := by
  have hsub : dst + BitVec.ofNat w i - dst = BitVec.ofNat w i := by
    rw [BitVec.add_comm, BitVec.add_sub_cancel]
  simp [move, inRange_add dst n i hi hw, hsub]

@[simp] theorem move_zero (dst src : BitVec w) (m : Memory w) : move dst src 0 m = m := by
  funext x
  simp [move, InRange]

/-- A move of one byte is an assignment. -/
theorem set_eq_move (dst src : BitVec w) (m : Memory w) :
    (fun x => if x = dst then m src else m x) = move dst src 1 m := by
  funext x
  have hiff : InRange dst 1 x ↔ x = dst := by
    constructor
    · intro hin
      have hzero : (x - dst).toNat = 0 := Nat.lt_one_iff.mp hin
      exact sub_eq_zero.mp (BitVec.eq_of_toNat_eq (hzero.trans BitVec.toNat_zero.symm))
    · rintro rfl
      exact inRange_self _ Nat.one_pos
  unfold move
  rcases eq_or_ne x dst with rfl | hne
  · simp [hiff]
  · simp [hiff, hne]

@[simp] theorem move_self (a : BitVec w) (n : Nat) (m : Memory w) : move a a n m = m := by
  funext x
  simp [move]

theorem loadLE_lt (m : Memory w) (a : BitVec w) (n : Nat) : loadLE m a n < 256 ^ n := by
  induction n generalizing a with
  | zero => simp [loadLE]
  | succ n ih =>
      have hbyte := (m a).toNat_lt
      have hrest := ih (a + 1)
      simp only [loadLE, Nat.pow_succ]
      omega

/-- Each byte of a loaded word is the byte of memory it came from. -/
theorem loadLE_byte (m : Memory w) (a : BitVec w) (n i : Nat) (hi : i < n) :
    loadLE m a n / 256 ^ i % 256 = (m (a + BitVec.ofNat w i)).toNat := by
  induction n generalizing a i with
  | zero => omega
  | succ n ih =>
      have hbyte := (m a).toNat_lt
      cases i with
      | zero =>
          simp only [loadLE, Nat.pow_zero, Nat.div_one]
          rw [Nat.add_mul_mod_self_left, Nat.mod_eq_of_lt (by simpa using hbyte)]
          simp
      | succ i =>
          have hshift : a + 1 + BitVec.ofNat w i = a + BitVec.ofNat w (i + 1) := by
            rw [Nat.add_comm i 1, BitVec.ofNat_add, BitVec.add_assoc]
            rfl
          have hdiv : ((m a).toNat + 256 * loadLE m (a + 1) n) / 256 = loadLE m (a + 1) n := by
            rw [Nat.add_mul_div_left _ _ (by decide), Nat.div_eq_of_lt (by simpa using hbyte),
              Nat.zero_add]
          simp only [loadLE]
          rw [Nat.pow_succ', ← Nat.div_div_eq_div_mul, hdiv, ih (a + 1) i (by omega), hshift]

/-- The low bytes of a word are the shorter word at its address. -/
theorem loadLE_mod (m : Memory w) (a : BitVec w) {n k : Nat} (hk : k ≤ n) :
    loadLE m a n % 256 ^ k = loadLE m a k := by
  induction k generalizing a n with
  | zero => exact Nat.mod_one _
  | succ k ih =>
      obtain ⟨n, rfl⟩ : ∃ j, n = j + 1 := ⟨n - 1, by omega⟩
      have hbyte := (m a).toNat_lt
      rw [loadLE, loadLE, Nat.pow_succ', Nat.mod_mul, ← ih (a + 1) (show k ≤ n by omega)]
      congr 1
      · omega
      · congr 2
        omega

theorem loadLE_congr {m m' : Memory w} {a a' : BitVec w} (n : Nat)
    (h : ∀ i, i < n → m (a + BitVec.ofNat w i) = m' (a' + BitVec.ofNat w i)) :
    loadLE m a n = loadLE m' a' n := by
  induction n generalizing a a' with
  | zero => rfl
  | succ n ih =>
      have hhead : m a = m' a' := by simpa using h 0 (by omega)
      have htail : loadLE m (a + 1) n = loadLE m' (a' + 1) n := by
        apply ih
        intro i hi
        have hstep := h (i + 1) (by omega)
        have hshift (b : BitVec w) : b + 1 + BitVec.ofNat w i = b + BitVec.ofNat w (i + 1) := by
          rw [Nat.add_comm i 1, BitVec.ofNat_add, BitVec.add_assoc]
          rfl
        rw [hshift, hshift]
        exact hstep
      simp only [loadLE, hhead, htail]

/-- Storing a word that was just loaded moves its bytes. -/
theorem storeLE_loadLE (m m' : Memory w) (dst src : BitVec w) (n : Nat) (x : BitVec w) :
    storeLE m dst n (loadLE m' src n) x =
      if InRange dst n x then m' (src + (x - dst)) else m x := by
  unfold storeLE
  split
  · rename_i hin
    apply UInt8.toNat.inj
    have hbyte := loadLE_byte m' src n (x - dst).toNat hin
    rw [BitVec.ofNat_toNat, BitVec.setWidth_eq] at hbyte
    rw [UInt8.toNat_ofNat', ← hbyte]
  · rfl

theorem storeLE_loadLE_eq_move (m : Memory w) (dst src : BitVec w) (n : Nat) :
    storeLE m dst n (loadLE m src n) = move dst src n m := by
  funext x
  rw [storeLE_loadLE]
  rfl

theorem eq_of_bytes (n u v : Nat) (hu : u < 256 ^ n) (hv : v < 256 ^ n)
    (h : ∀ i, i < n → u / 256 ^ i % 256 = v / 256 ^ i % 256) : u = v := by
  induction n generalizing u v with
  | zero => simp at hu hv; omega
  | succ n ih =>
      have hlow : u % 256 = v % 256 := by simpa using h 0 (by omega)
      have hhigh : u / 256 = v / 256 := by
        apply ih
        · rw [Nat.pow_succ] at hu; omega
        · rw [Nat.pow_succ] at hv; omega
        · intro i hi
          have hstep := h (i + 1) (by omega)
          rwa [Nat.pow_succ', ← Nat.div_div_eq_div_mul, ← Nat.div_div_eq_div_mul] at hstep
      omega

theorem loadLE_storeLE_same (m : Memory w) (a : BitVec w) (n v : Nat)
    (hn : n ≤ 2 ^ w) (hv : v < 256 ^ n) : loadLE (storeLE m a n v) a n = v := by
  apply eq_of_bytes n _ _ (loadLE_lt _ _ _) hv
  intro i hi
  have hsub : a + BitVec.ofNat w i - a = BitVec.ofNat w i := by
    rw [BitVec.add_comm, BitVec.add_sub_cancel]
  have hoff : (BitVec.ofNat w i).toNat = i := by
    rw [BitVec.toNat_ofNat, Nat.mod_eq_of_lt (by omega)]
  rw [loadLE_byte _ _ _ _ hi, storeLE, if_pos (inRange_add a n i hi (by omega)), hsub, hoff,
    UInt8.toNat_ofNat']

theorem loadLE_of_unchanged {m m' : Memory w} {b : BitVec w} {k : Nat} (hk : k ≤ 2 ^ w)
    (h : ∀ x, InRange b k x → m' x = m x) : loadLE m' b k = loadLE m b k := by
  apply loadLE_congr
  intro i hi
  exact h _ (inRange_add b k i hi (by omega))

/-! ### Register-sized words

A machine with `8 * b`-bit registers loads and stores `b` bytes at a time. -/

section Words

variable {b : Nat}

/-- The register-sized word at `a`. -/
def loadWord (m : Memory w) (a : BitVec w) : BitVec (8 * b) :=
  BitVec.ofNat (8 * b) (loadLE m a b)

/-- Store a register from `a` on. -/
def storeWord (m : Memory w) (a : BitVec w) (v : BitVec (8 * b)) : Memory w :=
  storeLE m a b v.toNat

theorem toNat_loadWord (m : Memory w) (a : BitVec w) :
    (loadWord m a : BitVec (8 * b)).toNat = loadLE m a b := by
  have hlt := loadLE_lt m a b
  have hpow : 256 ^ b = 2 ^ (8 * b) := by rw [Nat.pow_mul]
  rw [loadWord, BitVec.toNat_ofNat, Nat.mod_eq_of_lt (by omega)]

/-- A longer word cut to the size of a register. -/
theorem ofNat_loadLE (m : Memory w) (a : BitVec w) {n : Nat} (hn : b ≤ n) :
    BitVec.ofNat (8 * b) (loadLE m a n) = loadWord m a := by
  apply BitVec.eq_of_toNat_eq
  have hpow : 2 ^ (8 * b) = 256 ^ b := by rw [Nat.pow_mul]
  rw [toNat_loadWord, BitVec.toNat_ofNat, hpow, loadLE_mod m a hn]

theorem storeWord_of_not_inRange (m : Memory w) (a x : BitVec w) (v : BitVec (8 * b))
    (h : ¬ InRange a b x) : storeWord m a v x = m x :=
  storeLE_of_not_inRange m a x b v.toNat h

theorem storeWord_zero (m : Memory w) {a x : BitVec w} (h : InRange a b x) :
    storeWord m a (0 : BitVec (8 * b)) x = 0 := by
  simp [storeWord, storeLE, h]

theorem storeWord_loadWord_eq_move (m : Memory w) (dst src : BitVec w) :
    storeWord m dst (loadWord m src : BitVec (8 * b)) = move dst src b m := by
  rw [storeWord, toNat_loadWord, storeLE_loadLE_eq_move]

theorem loadWord_storeWord_same (m : Memory w) (a : BitVec w) (v : BitVec (8 * b))
    (hb : b ≤ 2 ^ w) : (loadWord (storeWord m a v) a : BitVec (8 * b)) = v := by
  have hpow : 256 ^ b = 2 ^ (8 * b) := by rw [Nat.pow_mul]
  rw [loadWord, storeWord, loadLE_storeLE_same m a b v.toNat hb (by rw [hpow]; exact v.isLt)]
  simp

theorem loadWord_congr {m m' : Memory w} {a a' : BitVec w}
    (h : ∀ i, i < b → m (a + BitVec.ofNat w i) = m' (a' + BitVec.ofNat w i)) :
    (loadWord m a : BitVec (8 * b)) = loadWord m' a' := by
  rw [loadWord, loadWord, loadLE_congr b h]

theorem byte_of_loadWord_eq {m m' : Memory w} {a a' : BitVec w}
    (h : (loadWord m a : BitVec (8 * b)) = loadWord m' a') (i : Nat) (hi : i < b) :
    m (a + BitVec.ofNat w i) = m' (a' + BitVec.ofNat w i) := by
  apply UInt8.toNat.inj
  rw [← loadLE_byte m a b i hi, ← loadLE_byte m' a' b i hi, ← toNat_loadWord, ← toNat_loadWord, h]

theorem loadWord_of_unchanged {m m' : Memory w} {a : BitVec w} (hb : b ≤ 2 ^ w)
    (h : ∀ x, InRange a b x → m' x = m x) :
    (loadWord m' a : BitVec (8 * b)) = loadWord m a := by
  rw [loadWord, loadWord, loadLE_of_unchanged hb h]

theorem loadWord_storeWord_of_disjoint (m : Memory w) (a c : BitVec w) (v : BitVec (8 * b))
    (hb : b ≤ 2 ^ w) (h : Disjoint a b c b) :
    (loadWord (storeWord m a v) c : BitVec (8 * b)) = loadWord m c := by
  apply loadWord_of_unchanged hb
  intro x hx
  exact storeWord_of_not_inRange m a x v (fun ha => h x ha hx)

end Words

/-! ### Chunk loops -/

/-- `k` iterations of an ascending loop that copies `c` bytes at a time. -/
def copyUp (c : Nat) (dst src : BitVec w) : Nat → Memory w → Memory w
  | 0, m => m
  | k + 1, m => move (dst + BitVec.ofNat w (c * k)) (src + BitVec.ofNat w (c * k)) c
      (copyUp c dst src k m)

/-- `k` iterations of a descending loop over `n` bytes, `c` bytes at a time. -/
def copyDown (c n : Nat) (dst src : BitVec w) : Nat → Memory w → Memory w
  | 0, m => m
  | k + 1, m => move (dst + BitVec.ofNat w (n - c * (k + 1)))
      (src + BitVec.ofNat w (n - c * (k + 1))) c (copyDown c n dst src k m)

/-- Moving the next chunk after a prefix moves the longer prefix, when the
source range lies cyclically at or after the destination. -/
theorem move_move_append (dst src : BitVec w) (a c : Nat) (m : Memory w)
    (hsafe : (src - dst).toNat + (a + c) ≤ 2 ^ w) :
    move (dst + BitVec.ofNat w a) (src + BitVec.ofNat w a) c (move dst src a m) =
      move dst src (a + c) m := by
  funext x
  have hx := (x - dst).isLt
  have hoff := offset_add dst x a (by omega)
  have hread : src + BitVec.ofNat w a + (x - (dst + BitVec.ofNat w a)) = src + (x - dst) := by
    ring
  by_cases hlow : (x - dst).toNat < a
  · have hnot : ¬ InRange (dst + BitVec.ofNat w a) c x := by
      unfold InRange
      rw [hoff, if_neg (by omega)]
      omega
    have hin : InRange dst a x := hlow
    have hin' : InRange dst (a + c) x := Nat.lt_add_right c hlow
    rw [move_of_not_inRange _ _ _ _ _ hnot]
    simp [move, hin, hin']
  · by_cases hhigh : (x - dst).toNat < a + c
    · have hin : InRange (dst + BitVec.ofNat w a) c x := by
        unfold InRange
        rw [hoff, if_pos (by omega)]
        omega
      have hin' : InRange dst (a + c) x := hhigh
      have hunread : ¬ InRange dst a (src + (x - dst)) := by
        have hdist : src + (x - dst) - dst = (src - dst) + (x - dst) := by
          ring
        unfold InRange
        rw [hdist, BitVec.toNat_add_of_lt (by omega)]
        omega
      simp only [move, hin, hin', if_true, hread, hunread, if_false]
    · have hnot : ¬ InRange (dst + BitVec.ofNat w a) c x := by
        unfold InRange
        rw [hoff, if_pos (by omega)]
        omega
      have hnot' : ¬ InRange dst (a + c) x := hhigh
      have hnot'' : ¬ InRange dst a x := hlow
      rw [move_of_not_inRange _ _ _ _ _ hnot, move_of_not_inRange _ _ _ _ _ hnot',
        move_of_not_inRange _ _ _ _ _ hnot'']

/-- Moving the chunk before a suffix moves the longer suffix, when the source
range lies cyclically at or before the destination. -/
theorem move_move_prepend (dst src : BitVec w) (c n : Nat) (m : Memory w)
    (hsafe : (dst - src).toNat + (c + n) ≤ 2 ^ w) :
    move dst src c (move (dst + BitVec.ofNat w c) (src + BitVec.ofNat w c) n m) =
      move dst src (c + n) m := by
  funext x
  have hx := (x - dst).isLt
  have hoff := offset_add dst x c (by omega)
  have hread : src + BitVec.ofNat w c + (x - (dst + BitVec.ofNat w c)) = src + (x - dst) := by
    ring
  by_cases hlow : (x - dst).toNat < c
  · have hin : InRange dst c x := hlow
    have hin' : InRange dst (c + n) x := Nat.lt_add_right n hlow
    have hunread : ¬ InRange (dst + BitVec.ofNat w c) n (src + (x - dst)) := by
      have hdist : src + (x - dst) - dst = (x - dst) - (dst - src) := by
        ring
      have hcyc := toNat_sub_cases (x - dst) (dst - src)
      unfold InRange
      rw [offset_add dst (src + (x - dst)) c (by omega), hdist, hcyc]
      split <;> split <;> omega
    simp only [move, hin, hin', if_true, hunread, if_false]
  · have hnot : ¬ InRange dst c x := hlow
    rw [move_of_not_inRange _ _ _ _ _ hnot]
    by_cases hhigh : (x - dst).toNat < c + n
    · have hin : InRange (dst + BitVec.ofNat w c) n x := by
        unfold InRange
        rw [hoff, if_pos (by omega)]
        omega
      have hin' : InRange dst (c + n) x := hhigh
      simp only [move, hin, hin', if_true, hread]
    · have hnot' : ¬ InRange (dst + BitVec.ofNat w c) n x := by
        unfold InRange
        rw [hoff, if_pos (by omega)]
        omega
      have hnot'' : ¬ InRange dst (c + n) x := hhigh
      rw [move_of_not_inRange _ _ _ _ _ hnot', move_of_not_inRange _ _ _ _ _ hnot'']

/-- A move of whole words, at a whole number of words from the word at `a`, takes
all of that word or none of it. -/
theorem loadWord_move_words {b : Nat} (dst src a : BitVec w) (n : Nat) (m : Memory w)
    (hn : n % b = 0) (hal : (a - dst).toNat % b = 0) (hw : 2 ^ w % b = 0) :
    (loadWord (move dst src n m) a : BitVec (8 * b)) =
      if InRange dst n a then loadWord m (src + (a - dst)) else loadWord m a := by
  have ha := (a - dst).isLt
  have hoff (i : Nat) : a + BitVec.ofNat w i - dst = (a - dst) + BitVec.ofNat w i := by
    ring
  -- the next multiple of `b` above a multiple of `b` is at a distance of at least `b`
  have hgap (u v : Nat) (hu : u % b = 0) (hv : v % b = 0) (huv : u < v) : u + b ≤ v := by
    obtain ⟨j, rfl⟩ := Nat.dvd_of_mod_eq_zero hu
    obtain ⟨k, rfl⟩ := Nat.dvd_of_mod_eq_zero hv
    rw [← Nat.mul_succ]
    exact Nat.mul_le_mul_left b (Nat.lt_of_mul_lt_mul_left huv)
  have htop := hgap _ _ hal hw ha
  split
  · rename_i hin
    have hend := hgap _ _ hal hn hin
    apply loadWord_congr
    intro i hi
    have hin' : InRange dst n (a + BitVec.ofNat w i) := by
      unfold InRange
      rw [hoff, toNat_add_ofNat _ _ (by omega)]
      omega
    simp only [move, hin', if_true, hoff, add_assoc]
  · rename_i hout
    apply loadWord_congr
    intro i hi
    apply move_of_not_inRange
    unfold InRange at hout ⊢
    rw [hoff, toNat_add_ofNat _ _ (by omega)]
    omega

/-- The ascending loop computes the simultaneous move of the bytes it has
passed, for every overlap in which the source is not below the destination. -/
theorem copyUp_eq_move (c : Nat) (dst src : BitVec w) (k : Nat) (m : Memory w)
    (hsafe : (src - dst).toNat + c * k ≤ 2 ^ w) :
    copyUp c dst src k m = move dst src (c * k) m := by
  induction k with
  | zero => simp [copyUp]
  | succ k ih =>
      rw [Nat.mul_succ] at hsafe ⊢
      rw [copyUp, ih (by omega)]
      exact move_move_append dst src (c * k) c m hsafe

theorem copyUp_at (c : Nat) (dst src : BitVec w) (m : Memory w) {j k : Nat} (hc : 0 < c)
    (hj : j < k) (hk : c * k ≤ 2 ^ w) :
    copyUp c dst src k m (dst + BitVec.ofNat w (c * j)) =
      copyUp c dst src j m (src + BitVec.ofNat w (c * j)) := by
  induction k with
  | zero => omega
  | succ k ih =>
      rw [Nat.mul_succ] at hk
      rcases Nat.lt_succ_iff_lt_or_eq.mp hj with hlt | rfl
      · have hchunk : c * j + c ≤ c * k := by
          rw [← Nat.mul_succ]
          exact Nat.mul_le_mul_left c hlt
        have hsub : dst + BitVec.ofNat w (c * j) - dst = BitVec.ofNat w (c * j) := by ring
        have hoff := offset_add dst (dst + BitVec.ofNat w (c * j)) (c * k) (by omega)
        rw [hsub, BitVec.toNat_ofNat, Nat.mod_eq_of_lt (by omega), if_neg (by omega)] at hoff
        rw [copyUp, move_of_not_inRange, ih hlt (by omega)]
        unfold InRange
        rw [hoff]
        omega
      · have hfirst := move_inside (dst + BitVec.ofNat w (c * j)) (src + BitVec.ofNat w (c * j)) c 0
          (copyUp c dst src j m) hc (Nat.two_pow_pos w)
        simpa [copyUp] using hfirst

/-- The first iteration of the ascending loop on its own. -/
theorem copyUp_head (c : Nat) (dst src : BitVec w) (k : Nat) (m : Memory w) :
    copyUp c dst src (k + 1) m =
      copyUp c (dst + BitVec.ofNat w c) (src + BitVec.ofNat w c) k (move dst src c m) := by
  induction k with
  | zero => simp [copyUp]
  | succ k ih =>
      have hshift (a : BitVec w) : a + BitVec.ofNat w (c * (k + 1)) =
          a + BitVec.ofNat w c + BitVec.ofNat w (c * k) := by
        rw [add_assoc, ← BitVec.ofNat_add, Nat.mul_succ, Nat.add_comm]
      rw [copyUp, ih, hshift dst, hshift src, copyUp]

theorem copyUp_of_not_inRange (c : Nat) (dst src x : BitVec w) (k : Nat) (m : Memory w)
    (hk : c * k ≤ 2 ^ w) (hx : ¬ InRange dst (c * k) x) : copyUp c dst src k m x = m x := by
  induction k with
  | zero => rfl
  | succ k ih =>
      rw [Nat.mul_succ] at hk hx
      rw [copyUp, move_of_not_inRange, ih (by omega)]
      · exact fun hin => hx (Nat.lt_add_right c hin)
      · exact fun hin => hx (inRange_mono le_rfl hk hin)

/-- What an ascending byte loop leaves behind when it runs into its own source: the bytes in
front of the destination, over and over. -/
theorem copyUp_repeats (dst src : BitVec w) (n : Nat) (m : Memory w) (hn : n ≤ 2 ^ w) (i : Nat)
    (hi : i < n) :
    copyUp 1 dst src n m (dst + BitVec.ofNat w i) =
      m (src + BitVec.ofNat w (i % (dst - src).toNat)) := by
  generalize hd : (dst - src).toNat = d
  have hdst : dst = src + BitVec.ofNat w d := by
    rw [← hd, BitVec.ofNat_toNat, BitVec.setWidth_eq, add_offset]
  induction i using Nat.strongRecOn with
  | ind i ih =>
      have hat := copyUp_at 1 dst src m Nat.one_pos hi (by omega)
      rw [Nat.one_mul] at hat
      rw [hat]
      by_cases hpast : 0 < d ∧ d ≤ i
      · -- the byte that is read has been written before, `d` bytes further back
        have hback : src + BitVec.ofNat w i = dst + BitVec.ofNat w (i - d) := by
          rw [hdst, add_assoc, ← BitVec.ofNat_add]
          congr 2
          omega
        have hearlier := copyUp_at 1 dst src m Nat.one_pos (show i - d < i by omega) (by omega)
        have hearlier' := copyUp_at 1 dst src m Nat.one_pos (show i - d < n by omega) (by omega)
        rw [Nat.one_mul] at hearlier hearlier'
        rw [hback, hearlier, ← hearlier', ih (i - d) (by omega) (by omega),
          ← Nat.mod_eq_sub_mod hpast.2]
      · have hmod : i % d = i := by
          rcases Nat.eq_zero_or_pos d with rfl | hpos
          · exact Nat.mod_zero i
          · exact Nat.mod_eq_of_lt (by omega)
        rw [hmod, copyUp_of_not_inRange _ _ _ _ _ _ (by omega)]
        -- the byte that is read is one that the loop has not come to
        have hdist : src + BitVec.ofNat w i - dst = BitVec.ofNat w i - (dst - src) := by
          ring
        have hcyc := toNat_sub_cases (BitVec.ofNat w i) (dst - src)
        have hlt := (dst - src).isLt
        rw [BitVec.toNat_ofNat, Nat.mod_eq_of_lt (show i < 2 ^ w by omega), hd] at hcyc
        unfold InRange
        rw [hdist, hcyc]
        split <;> omega

/-- What a forward copy of `n` bytes asks of its ranges: they share no byte, or the
destination starts at or below a source that does not reach round the top. -/
theorem forward_safe (dst src : BitVec w) (n : Nat)
    (h : Disjoint dst n src n ∨ (dst.toNat ≤ src.toNat ∧ src.toNat + n ≤ 2 ^ w)) :
    (src - dst).toNat + n ≤ 2 ^ w := by
  have hlt := (src - dst).isLt
  have hback := toNat_sub_cases dst src
  have hforth := toNat_sub_cases src dst
  have hsrc := src.isLt
  have hdst := dst.isLt
  rcases h with hdisj | ⟨hle, htop⟩
  · by_contra hround
    -- the source would reach round to the first byte of the destination
    apply hdisj dst
    · unfold InRange
      rw [BitVec.sub_self]
      simp only [BitVec.toNat_ofNat, Nat.zero_mod]
      omega
    · unfold InRange
      split at hback <;> split at hforth <;> omega
  · rw [if_pos hle] at hforth
    omega

/-- The descending loop computes the simultaneous move of the bytes it has
passed, for every overlap in which the source is not above the destination. -/
theorem copyDown_eq_move (c n : Nat) (dst src : BitVec w) (k : Nat) (m : Memory w)
    (hk : c * k ≤ n) (hsafe : (dst - src).toNat + n ≤ 2 ^ w) :
    copyDown c n dst src k m =
      move (dst + BitVec.ofNat w (n - c * k)) (src + BitVec.ofNat w (n - c * k)) (c * k) m := by
  induction k with
  | zero => simp [copyDown]
  | succ k ih =>
      rw [Nat.mul_succ] at hk
      have hsplit : n - c * k = n - c * (k + 1) + c := by
        rw [Nat.mul_succ]
        omega
      have hdist : dst + BitVec.ofNat w (n - c * (k + 1)) -
          (src + BitVec.ofNat w (n - c * (k + 1))) = dst - src := by
        ring
      have hlen : c * (k + 1) = c + c * k := by rw [Nat.mul_succ, Nat.add_comm]
      rw [copyDown, ih (by omega), hsplit, BitVec.ofNat_add, ← BitVec.add_assoc,
        ← BitVec.add_assoc, hlen]
      apply move_move_prepend
      rw [hlen] at hdist
      rw [hdist]
      omega

end ZStage.Lib.ByteMemory
