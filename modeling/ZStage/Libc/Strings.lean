import ZStage.Lib.CString
import ZStage.Lib.Trace

/-!
The string functions of `firmware/string.c` that only read. A string argument is the
bytes from its pointer on, and each byte that is read is an event of the trace, under
its index. A loop without a bound of its own runs for at most `fuel` rounds; `none`
stands for a loop that has not ended then. A `char` is unsigned, as on RISC-V.
-/

namespace ZStage.Libc

open ZStage.Lib.CString ZStage.Lib.Trace

def load (s : Bytes) (i : Nat) : Traced Nat UInt8 := emit i (s i)

/-- `strcmp` from byte `i` of both strings on. -/
def strcmpFrom (a b : Bytes) : Nat → Nat → Traced Nat (Option Int)
  | 0, _ => pure none
  | fuel + 1, i => do
    let x ← load a i
    let y ← load b i
    if x = y ∧ x ≠ 0 then strcmpFrom a b fuel (i + 1)
    else pure (some ((x.toNat : Int) - y.toNat))

def strcmp (a b : Bytes) (fuel : Nat) : Traced Nat (Option Int) := strcmpFrom a b fuel 0

/-- `while (*str != '\0') { ret++; str++; }`, `str` being at byte `i`. -/
def strlenLoop (str : Bytes) : Nat → Nat → Nat → Traced Nat (Option Nat)
  | 0, _, _ => pure none
  | fuel + 1, i, ret => do
    let c ← load str i
    if c ≠ 0 then strlenLoop str fuel (i + 1) (ret + 1) else pure (some ret)

def strlen (str : Bytes) (fuel : Nat) : Traced Nat (Option Nat) := strlenLoop str fuel 0 0

/-- `while (*str != '\0' && ret < count) { ret++; str++; count--; }`. -/
def strnlenLoop (str : Bytes) (i ret : Nat) : Nat → Traced Nat Nat
  | 0 => do
    let _ ← load str i
    pure ret
  | count + 1 => do
    let c ← load str i
    if c ≠ 0 ∧ ret < count + 1 then strnlenLoop str (i + 1) (ret + 1) count else pure ret

def strnlen (str : Bytes) (count : Nat) : Traced Nat Nat := strnlenLoop str 0 0 count

/-! ## The length -/

theorem strlen_value {str : Bytes} {n fuel : Nat} (h : Terminated str n) (hfuel : n < fuel) :
    (strlen str fuel).value = some n := by
  have hloop (k i fuel ret : Nat) (hk : i + k = n) (hfuel : k < fuel) :
      (strlenLoop str fuel i ret).value = some (ret + k) := by
    induction k generalizing i fuel ret with
    | zero =>
        cases fuel with
        | zero => omega
        | succ fuel =>
            have hnul : str i = 0 := by
              rw [show i = n by omega]
              exact h.nul
            simp [strlenLoop, load, hnul]
    | succ k ih =>
        cases fuel with
        | zero => omega
        | succ fuel =>
            have hbody := h.body i (by omega)
            have hrest := ih (i + 1) fuel (ret + 1) (by omega) (by omega)
            simp only [strlenLoop, load, value_bind, value_emit, ne_eq, hbody, not_false_eq_true,
              if_true, hrest]
            congr 1
            omega
  have hrun := hloop n 0 fuel 0 (by omega) hfuel
  rwa [Nat.zero_add] at hrun

/-! ## The comparisons

`strcmp`, `strncmp` and `memcmp` are one loop, with a test of its own and a result of its
own where the rounds run out. -/

section Comparisons

variable {β : Type} (goes : UInt8 → UInt8 → Prop) [DecidableRel goes]

/-- The loop of a comparison from byte `i` on: it goes on over bytes that pass the test, and
ends with the difference of the first two that do not. -/
def compareLoop (exhausted : β) (result : Int → β) (a b : Bytes) : Nat → Nat → Traced Nat β
  | 0, _ => pure exhausted
  | rounds + 1, i => do
    let x ← load a i
    let y ← load b i
    if goes x y then compareLoop exhausted result a b rounds (i + 1)
    else pure (result ((x.toNat : Int) - y.toNat))

def Undecided (a b : Bytes) (i : Nat) : Prop := ∀ j, j < i → goes (a j) (b j)

structure StopsAt (a b : Bytes) (k : Nat) : Prop where
  before : Undecided goes a b k
  stop : ¬goes (a k) (b k)

variable {goes} {a b : Bytes} {k i rounds : Nat} (exhausted : β) (result : Int → β)

/-- A loop that stops reads every byte up to there, and its result is the difference. -/
theorem compareLoop_stop (h : StopsAt goes a b k) (hi : i ≤ k) (hrounds : k < i + rounds)
    (p : Nat → Prop) :
    (compareLoop goes exhausted result a b rounds i).value =
        result ((a k).toNat - (b k).toNat) ∧
      ((compareLoop goes exhausted result a b rounds i).Safe p ↔ ∀ j, i ≤ j → j ≤ k → p j) := by
  induction rounds generalizing i with
  | zero => omega
  | succ rounds ih =>
      rcases Nat.lt_or_eq_of_le hi with hlt | rfl
      · obtain ⟨hvalue, hsafe⟩ := ih hlt (by omega)
        simp only [compareLoop, load, value_emit_bind, safe_emit_bind, if_pos (h.before i hlt),
          hvalue, hsafe, true_and]
        rw [and_self_left, forall_from_iff (i := i), forall_prop_of_true hi]
      · simp only [compareLoop, load, value_emit_bind, safe_emit_bind, if_neg h.stop, value_pure,
          safe_pure, and_true, and_self, true_and]
        exact forall_at_iff.symm

theorem compareLoop_exhausted (h : Undecided goes a b (i + rounds)) (p : Nat → Prop) :
    (compareLoop goes exhausted result a b rounds i).value = exhausted ∧
      ((compareLoop goes exhausted result a b rounds i).Safe p ↔
        ∀ j, i ≤ j → j < i + rounds → p j) := by
  induction rounds generalizing i with
  | zero =>
      simp only [compareLoop, value_pure, safe_pure, true_and, true_iff]
      intro j hij hji
      omega
  | succ rounds ih =>
      rw [← Nat.add_assoc, Nat.add_right_comm] at h ⊢
      have hin : i < i + 1 + rounds := by omega
      obtain ⟨hvalue, hsafe⟩ := ih h
      simp only [compareLoop, load, value_emit_bind, safe_emit_bind, if_pos (h i hin),
        hvalue, hsafe, true_and]
      rw [and_self_left, forall_from_iff (i := i), forall_prop_of_true hin]

/-- Below a bound the loop stops, or no byte stops it. -/
theorem stops_or_undecided (goes : UInt8 → UInt8 → Prop) (a b : Bytes) (n : Nat) :
    (∃ k, k < n ∧ StopsAt goes a b k) ∨ Undecided goes a b n := by
  classical
  by_cases hstop : ∃ k, ¬goes (a k) (b k)
  · rcases Nat.lt_or_ge (Nat.find hstop) n with hlt | hle
    · refine Or.inl ⟨Nat.find hstop, hlt, ?_, Nat.find_spec hstop⟩
      intro j hj
      exact not_not.1 (Nat.find_min hstop hj)
    · right
      intro j hj
      exact not_not.1 (Nat.find_min hstop (by omega))
  · right
    intro j _
    exact not_not.1 fun hj => hstop ⟨j, hj⟩

theorem compareLoop_value (h : StopsAt goes a b k) (hrounds : k < rounds) :
    (compareLoop goes exhausted result a b rounds 0).value =
      result ((a k).toNat - (b k).toNat) :=
  (compareLoop_stop exhausted result h (Nat.zero_le k) (by omega) fun _ => True).1

theorem compareLoop_value_exhausted (h : Undecided goes a b rounds) :
    (compareLoop goes exhausted result a b rounds 0).value = exhausted := by
  rw [← Nat.zero_add rounds] at h
  exact (compareLoop_exhausted exhausted result h fun _ => True).1

theorem compareLoop_safe (a b : Bytes) (rounds : Nat) :
    (compareLoop goes exhausted result a b rounds 0).Safe
      fun i => i < rounds ∧ Undecided goes a b i := by
  rcases stops_or_undecided goes a b rounds with ⟨k, hk, hstop⟩ | hgo
  · rw [(compareLoop_stop exhausted result hstop (Nat.zero_le k) (by omega) _).2]
    intro j _ hjk
    exact ⟨by omega, fun l hl => hstop.before l (by omega)⟩
  · rw [← Nat.zero_add rounds] at hgo
    rw [(compareLoop_exhausted exhausted result hgo _).2]
    intro j _ hj
    exact ⟨by omega, fun l hl => hgo l (by omega)⟩

end Comparisons

/-- Equal characters, and not the end: the test of the loops over strings. -/
abbrev Alike (x y : UInt8) : Prop := x = y ∧ x ≠ 0

/-- The rounds of `strcmp` are the fuel. -/
theorem strcmpFrom_eq (a b : Bytes) (fuel i : Nat) :
    strcmpFrom a b fuel i = compareLoop Alike none some a b fuel i := by
  induction fuel generalizing i with
  | zero => rfl
  | succ fuel ih => simp only [strcmpFrom, compareLoop, ih]

theorem strcmp_value {a b : Bytes} {k fuel : Nat} (h : StopsAt Alike a b k) (hfuel : k < fuel) :
    (strcmp a b fuel).value = some ((a k).toNat - (b k).toNat : Int) := by
  rw [strcmp, strcmpFrom_eq]
  exact compareLoop_value none some h hfuel

/-- Strings with the same bytes compare equal. -/
theorem strcmp_of_eq {a b : Bytes} {n fuel : Nat} (h : Terminated a n)
    (heq : ∀ i, i ≤ n → b i = a i) (hfuel : n < fuel) : (strcmp a b fuel).value = some 0 := by
  have hstop : StopsAt Alike a b n := by
    refine ⟨?_, fun hgo => hgo.2 h.nul⟩
    intro j hj
    exact ⟨(heq j (Nat.le_of_lt hj)).symm, h.body j hj⟩
  rw [strcmp_value hstop hfuel, heq n le_rfl, Int.sub_self]

/-! ## The bounded length

The loop of `strnlen` counts up and takes its bound down, so the two meet half way: the
result is the length up to half of the count, rounded up. -/

section Rounds

variable (str : Bytes) (p : Nat → Prop)

theorem strnlenLoop_stop {i ret count : Nat} (h : str i ≠ 0 → count ≤ ret) :
    (strnlenLoop str i ret count).value = ret ∧ ((strnlenLoop str i ret count).Safe p ↔ p i) := by
  cases count with
  | zero => simp [strnlenLoop, load]
  | succ count =>
      have hstop : ¬ (str i ≠ 0 ∧ ret < count + 1) := fun hgo => by
        have hmet := h hgo.1
        omega
      simp only [strnlenLoop, load, value_emit_bind, safe_emit_bind, if_neg hstop, value_pure,
        safe_pure, and_true]

theorem strnlenLoop_next {i ret count : Nat} (hbody : str i ≠ 0) (hlt : ret < count) :
    (strnlenLoop str i ret count).value = (strnlenLoop str (i + 1) (ret + 1) (count - 1)).value ∧
      ((strnlenLoop str i ret count).Safe p ↔
        p i ∧ (strnlenLoop str (i + 1) (ret + 1) (count - 1)).Safe p) := by
  cases count with
  | zero => omega
  | succ count =>
      have hgo : str i ≠ 0 ∧ ret < count + 1 := ⟨hbody, hlt⟩
      simp only [strnlenLoop, load, value_emit_bind, safe_emit_bind, if_pos hgo,
        Nat.add_sub_cancel, true_and]

/-- From a round on to which the loop comes, it returns the half-way length and reads every
byte up to it. -/
theorem strnlenLoop_spec (count i : Nat) (hhalf : i ≤ (count + 1) / 2)
    (hbody : ∀ j, j < i → str j ≠ 0) :
    (strnlenLoop str i i (count - i)).value = boundedLength str ((count + 1) / 2) ∧
      ((strnlenLoop str i i (count - i)).Safe p ↔
        ∀ j, i ≤ j → j ≤ boundedLength str ((count + 1) / 2) → p j) := by
  by_cases hend : i = (count + 1) / 2 ∨ str i = 0
  · have hlen : boundedLength str ((count + 1) / 2) = i := by
      rw [boundedLength_eq_iff]
      refine ⟨hend, ?_⟩
      intro j hj
      exact ⟨by omega, hbody j hj⟩
    have hstop : str i ≠ 0 → count - i ≤ i := by
      intro hnul
      have hmet := hend.resolve_right hnul
      omega
    obtain ⟨hvalue, hsafe⟩ := strnlenLoop_stop str p hstop
    rw [hlen, hvalue, hsafe]
    exact ⟨rfl, forall_at_iff.symm⟩
  · obtain ⟨hunmet, hnul⟩ := not_or.mp hend
    have hbody' (j : Nat) (hj : j < i + 1) : str j ≠ 0 := by
      rcases Nat.lt_succ_iff_lt_or_eq.mp hj with hlt | rfl
      · exact hbody j hlt
      · exact hnul
    obtain ⟨hvalue, hsafe⟩ := strnlenLoop_next str p hnul (show i < count - i by omega)
    obtain ⟨hvalue', hsafe'⟩ := strnlenLoop_spec count (i + 1) (by omega) hbody'
    rw [← Nat.sub_sub] at hvalue' hsafe'
    rw [hvalue, hsafe, hvalue', hsafe']
    have hpast : i ≤ boundedLength str ((count + 1) / 2) := by
      by_contra hshort
      obtain ⟨hlen, -⟩ := boundedLength_eq_iff.mp
        (rfl : boundedLength str ((count + 1) / 2) = _)
      rcases hlen with hmet | hzero
      · omega
      · exact hbody _ (by omega) hzero
    rw [forall_from_iff (i := i), forall_prop_of_true hpast]
    exact ⟨rfl, Iff.rfl⟩
termination_by (count + 1) / 2 - i

end Rounds

theorem strnlen_value (str : Bytes) (count : Nat) :
    (strnlen str count).value = boundedLength str ((count + 1) / 2) :=
  (strnlenLoop_spec str (fun _ => True) count 0 (Nat.zero_le _)
    (fun j hj => absurd hj (Nat.not_lt_zero j))).1

theorem strnlen_safe (str : Bytes) (count : Nat) (p : Nat → Prop) :
    (strnlen str count).Safe p ↔ ∀ j, j ≤ boundedLength str ((count + 1) / 2) → p j := by
  have hloop := (strnlenLoop_spec str p count 0 (Nat.zero_le _)
    (fun j hj => absurd hj (Nat.not_lt_zero j))).2
  rw [Nat.sub_zero] at hloop
  rw [strnlen, hloop]
  exact ⟨fun h j hj => h j (Nat.zero_le j) hj, fun h j _ hj => h j hj⟩

/-- The length of the string, at most `count`, found without a read behind `count`. -/
def Measures (str : Bytes) (count : Nat) : Prop :=
  (strnlen str count).value = boundedLength str count ∧ (strnlen str count).Safe (· < count)

/-- `strnlen` measures a string that ends in the first half of its bytes, and no other. -/
theorem measures_iff (str : Bytes) (count : Nat) :
    Measures str count ↔ ∃ i, i < count ∧ i ≤ (count + 1) / 2 ∧ str i = 0 := by
  have hhalf := boundedLength_le str ((count + 1) / 2)
  obtain ⟨hend, hbefore⟩ := boundedLength_eq_iff.mp
    (rfl : boundedLength str ((count + 1) / 2) = _)
  rw [Measures, strnlen_value, strnlen_safe]
  generalize boundedLength str ((count + 1) / 2) = len at *
  constructor
  · rintro ⟨hlen, hreads⟩
    have hlt : len < count := hreads len le_rfl
    obtain ⟨hfull, -⟩ := boundedLength_eq_iff.mp hlen.symm
    rcases hfull with rfl | hnul
    · omega
    · exact ⟨len, hlt, hhalf, hnul⟩
  · rintro ⟨i, hi, hle, hnul⟩
    have hshort : len ≤ i := by
      by_contra hlong
      exact (hbefore i (by omega)).2 hnul
    have hnul' : str len = 0 := by
      rcases hend with hmet | hnul'
      · rwa [show len = i by omega]
      · exact hnul'
    refine ⟨?_, fun j hj => by omega⟩
    symm
    rw [boundedLength_eq_iff]
    refine ⟨Or.inr hnul', ?_⟩
    intro j hj
    exact ⟨by omega, (hbefore j hj).2⟩

end ZStage.Libc
