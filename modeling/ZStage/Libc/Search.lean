import ZStage.Libc.Strings

/-!
The searches of `firmware/string.c`: `strchr` forward to the terminator, `strrchr`
backward from it, and `memchr` by count. The terminator is part of the string that is
searched. `strrchr` and `memchr` find it; `strchr` stops there and reports that nothing
was found, whichever character was asked for.
-/

namespace ZStage.Libc

open ZStage.Lib.CString ZStage.Lib.Trace

/-! ## Occurrences -/

/-- The first of the places up to `last` that hold `x`, or none if there is none. -/
def IsFirst (s : Bytes) (last : Nat) (x : UInt8) : Option Nat → Prop
  | some k => k ≤ last ∧ s k = x ∧ ∀ j, j < k → s j ≠ x
  | none => ∀ j, j ≤ last → s j ≠ x

/-- The last of these places. -/
def IsLast (s : Bytes) (last : Nat) (x : UInt8) : Option Nat → Prop
  | some k => k ≤ last ∧ s k = x ∧ ∀ j, k < j → j ≤ last → s j ≠ x
  | none => ∀ j, j ≤ last → s j ≠ x

variable {s : Bytes} {n : Nat} {x : UInt8}

theorem IsFirst.eq_none_iff {r : Option Nat} (h : IsFirst s n x r) :
    r = none ↔ ∀ j, j ≤ n → s j ≠ x := by
  cases r with
  | none => exact iff_of_true rfl h
  | some k => exact iff_of_false nofun fun hall => hall k h.1 h.2.1

theorem IsLast.eq_none_iff {r : Option Nat} (h : IsLast s n x r) :
    r = none ↔ ∀ j, j ≤ n → s j ≠ x := by
  cases r with
  | none => exact iff_of_true rfl h
  | some k => exact iff_of_false nofun fun hall => hall k h.1 h.2.1

theorem IsFirst.unique {r r' : Option Nat} (h : IsFirst s n x r) (h' : IsFirst s n x r') :
    r = r' := by
  cases r with
  | none => exact (h'.eq_none_iff.2 h).symm
  | some k =>
      cases r' with
      | none => exact h.eq_none_iff.2 h'
      | some k' =>
          have hle : k ≤ k' := Nat.le_of_not_lt fun hlt => h.2.2 k' hlt h'.2.1
          have hge : k' ≤ k := Nat.le_of_not_lt fun hlt => h'.2.2 k hlt h.2.1
          rw [Nat.le_antisymm hle hge]

/-! ## The functions

NULL is `none`. -/

/-- `(char)c` and `(unsigned char)c`. -/
def toChar (c : Int32) : UInt8 := c.toUInt32.toUInt8

/-- `while (*s != '\0' && *s != (char)c) s++;`, `s` being at byte `i`. -/
def strchrLoop (s : Bytes) (c : UInt8) : Nat → Nat → Traced Nat (Option Nat)
  | 0, _ => pure none
  | fuel + 1, i => do
    let x ← load s i
    if x ≠ 0 ∧ x ≠ c then strchrLoop s c fuel (i + 1) else pure (some i)

def strchr (s : Bytes) (c : Int32) (fuel : Nat) : Traced Nat (Option (Option Nat)) := do
  let stop ← strchrLoop s (toChar c) fuel 0
  match stop with
  | none => pure none
  | some i => do
    let x ← load s i
    pure (some (if x = 0 then none else some i))

/-- `while (last > s && *last != (char)c) last--;`. -/
def strrchrLoop (s : Bytes) (c : UInt8) : Nat → Traced Nat Nat
  | 0 => pure 0
  | last + 1 => do
    let x ← load s (last + 1)
    if x ≠ c then strrchrLoop s c last else pure (last + 1)

def strrchr (s : Bytes) (c : Int32) (fuel : Nat) : Traced Nat (Option (Option Nat)) := do
  let len ← strlen s fuel
  match len with
  | none => pure none
  | some len => do
    let last ← strrchrLoop s (toChar c) len
    let x ← load s last
    pure (some (if x ≠ toChar c then none else some last))

/-- The loop of `memchr`, `temp` being at byte `i`. -/
def memchrLoop (s : Bytes) (c : UInt8) : Nat → Nat → Traced Nat (Option Nat)
  | 0, _ => pure none
  | count + 1, i => do
    let x ← load s i
    if c = x then pure (some i) else memchrLoop s c count (i + 1)

def memchr (s : Bytes) (c : Int32) (count : Nat) : Traced Nat (Option Nat) :=
  memchrLoop s (toChar c) count 0

/-! ## What they find -/

theorem strchrLoop_stop (h : Terminated s n) (c : UInt8) {fuel i : Nat} (hi : i ≤ n)
    (hfuel : n < i + fuel) :
    ∃ k, (strchrLoop s c fuel i).value = some k ∧ k ≤ n ∧ (s k = 0 ∨ s k = c) ∧
      ∀ j, i ≤ j → j < k → s j ≠ c := by
  induction fuel generalizing i with
  | zero => omega
  | succ fuel ih =>
      simp only [strchrLoop, load, value_emit_bind]
      by_cases hgo : s i ≠ 0 ∧ s i ≠ c
      · have hlt : i < n := by
          apply Nat.lt_of_le_of_ne hi
          rintro rfl
          exact hgo.1 h.nul
        obtain ⟨k, hvalue, hk, hstop, hbefore⟩ := ih (i := i + 1) hlt (by omega)
        rw [if_pos hgo]
        refine ⟨k, hvalue, hk, hstop, ?_⟩
        intro j hij hjk
        rcases Nat.lt_or_eq_of_le hij with hbehind | rfl
        · exact hbefore j hbehind hjk
        · exact hgo.2
      · rw [if_neg hgo]
        refine ⟨i, rfl, hi, ?_, fun j hij hji => absurd hij (by omega)⟩
        by_contra hneither
        exact hgo (not_or.1 hneither)

theorem strchr_value (s : Bytes) (c : Int32) (fuel : Nat) :
    (strchr s c fuel).value = (strchrLoop s (toChar c) fuel 0).value.map
      fun i => if s i = 0 then none else some i := by
  rw [strchr, value_bind]
  cases (strchrLoop s (toChar c) fuel 0).value with
  | none => rfl
  | some i => rfl

theorem strrchr_value (h : Terminated s n) {c : Int32} {fuel : Nat} (hfuel : n < fuel) {k : Nat}
    (hlast : (strrchrLoop s (toChar c) n).value = k) :
    (strrchr s c fuel).value = some (if s k ≠ toChar c then none else some k) := by
  rw [strrchr, value_bind, strlen_value h hfuel, ← hlast]
  rfl

/-- `strchr` finds the first place of every character but the terminator. -/
theorem strchr_isFirst (h : Terminated s n) {c : Int32} (hc : toChar c ≠ 0) {fuel : Nat}
    (hfuel : n < fuel) :
    ∃ r, (strchr s c fuel).value = some r ∧ IsFirst s n (toChar c) r := by
  obtain ⟨k, hvalue, hk, hstop, hbefore⟩ :=
    strchrLoop_stop h (toChar c) (Nat.zero_le n) (show n < 0 + fuel by omega)
  rw [strchr_value, hvalue, Option.map_some]
  by_cases hnul : s k = 0
  · refine ⟨none, by rw [if_pos hnul], ?_⟩
    intro j hj
    have hend : k = n := Nat.le_antisymm hk (h.le_of_nul hnul)
    rcases Nat.lt_or_eq_of_le hj with hlt | rfl
    · exact hbefore j (Nat.zero_le j) (by omega)
    · rw [h.nul]
      exact hc.symm
  · refine ⟨some k, by rw [if_neg hnul], hk, hstop.resolve_left hnul, ?_⟩
    exact fun j hj => hbefore j (Nat.zero_le j) hj

theorem strchr_nul (h : Terminated s n) {c : Int32} (hc : toChar c = 0) {fuel : Nat}
    (hfuel : n < fuel) : (strchr s c fuel).value = some none := by
  obtain ⟨k, hvalue, -, hstop, -⟩ :=
    strchrLoop_stop h (toChar c) (Nat.zero_le n) (show n < 0 + fuel by omega)
  have hnul : s k = 0 := hstop.elim id fun hchar => hchar.trans hc
  rw [strchr_value, hvalue, Option.map_some, if_pos hnul]

theorem strrchrLoop_stop (s : Bytes) (c : UInt8) (last : Nat) :
    (strrchrLoop s c last).value ≤ last ∧
      ((strrchrLoop s c last).value = 0 ∨ s (strrchrLoop s c last).value = c) ∧
      ∀ j, (strrchrLoop s c last).value < j → j ≤ last → s j ≠ c := by
  induction last with
  | zero =>
      refine ⟨le_rfl, Or.inl rfl, ?_⟩
      intro j hj hle
      omega
  | succ last ih =>
      simp only [strrchrLoop, load, value_emit_bind]
      by_cases hgo : s (last + 1) ≠ c
      · obtain ⟨hle, hstop, hbehind⟩ := ih
        rw [if_pos hgo]
        refine ⟨by omega, hstop, ?_⟩
        intro j hj hjl
        rcases Nat.lt_or_eq_of_le hjl with hlt | rfl
        · exact hbehind j hj (by omega)
        · exact hgo
      · rw [if_neg hgo, value_pure]
        refine ⟨le_rfl, Or.inr (not_not.1 hgo), ?_⟩
        intro j hj hle
        omega

theorem strrchr_isLast (h : Terminated s n) (c : Int32) {fuel : Nat} (hfuel : n < fuel) :
    ∃ r, (strrchr s c fuel).value = some r ∧ IsLast s n (toChar c) r := by
  obtain ⟨hle, hstop, hbehind⟩ := strrchrLoop_stop s (toChar c) n
  generalize hlast : (strrchrLoop s (toChar c) n).value = k at hle hstop hbehind
  rw [strrchr_value h hfuel hlast]
  by_cases hchar : s k = toChar c
  · exact ⟨some k, by rw [if_neg (not_not.2 hchar)], hle, hchar, hbehind⟩
  · refine ⟨none, by rw [if_pos hchar], ?_⟩
    intro j hj
    have hfirst : k = 0 := hstop.resolve_right hchar
    rcases Nat.eq_zero_or_pos j with rfl | hpos
    · rwa [← hfirst]
    · exact hbehind j (by omega) hj

/-- A count of `n + 1` takes in the places up to `n`. -/
theorem memchr_isFirst (s : Bytes) (c : Int32) (n : Nat) :
    IsFirst s n (toChar c) (memchr s c (n + 1)).value := by
  have hloop (count i : Nat) (hcount : i + count = n + 1)
      (hbefore : ∀ j, j < i → s j ≠ toChar c) :
      IsFirst s n (toChar c) (memchrLoop s (toChar c) count i).value := by
    induction count generalizing i with
    | zero => exact fun j hj => hbefore j (by omega)
    | succ count ih =>
        simp only [memchrLoop, load, value_emit_bind]
        by_cases hchar : toChar c = s i
        · rw [if_pos hchar]
          exact ⟨by omega, hchar.symm, hbefore⟩
        · rw [if_neg hchar]
          apply ih (i + 1) (by omega)
          intro j hj
          rcases Nat.lt_succ_iff_lt_or_eq.1 hj with hlt | rfl
          · exact hbefore j hlt
          · exact fun heq => hchar heq.symm
  exact hloop (n + 1) 0 (Nat.zero_add _) fun j hj => absurd hj (Nat.not_lt_zero j)

/-! ## The string as a whole -/

/-- What the three searches are to find in a string. -/
def SearchesRight (a : Str) (c : Int32) : Prop :=
  ∀ fuel, a.len < fuel → ∃ first last,
    (strchr a.bytes c fuel).value = some first ∧ (strrchr a.bytes c fuel).value = some last ∧
      IsFirst a.bytes a.len (toChar c) first ∧ IsLast a.bytes a.len (toChar c) last ∧
      (first = none ↔ last = none) ∧ (memchr a.bytes c (a.len + 1)).value = first

/-- The searches find the right places exactly where they do not look for the terminator, which
`strchr` alone does not find. -/
theorem searches_right_iff (a : Str) (c : Int32) :
    (SearchesRight a c ↔ toChar c ≠ 0) ∧
      IsFirst a.bytes a.len (toChar c) (memchr a.bytes c (a.len + 1)).value ∧
      ∀ fuel, a.len < fuel →
        (∃ last, (strrchr a.bytes c fuel).value = some last ∧
          IsLast a.bytes a.len (toChar c) last) ∧
        (toChar c = 0 → (strchr a.bytes c fuel).value = some none) := by
  have hcount := memchr_isFirst a.bytes c a.len
  refine ⟨⟨?_, ?_⟩, hcount, ?_⟩
  · intro h hc
    obtain ⟨first, last, hfirst, -, hisFirst, -⟩ := h (a.len + 1) (Nat.lt_succ_self _)
    rw [strchr_nul a.terminated hc (Nat.lt_succ_self _)] at hfirst
    cases hfirst
    exact hisFirst a.len le_rfl (a.terminated.nul.trans hc.symm)
  · intro hc fuel hfuel
    obtain ⟨first, hfirst, hisFirst⟩ := strchr_isFirst a.terminated hc hfuel
    obtain ⟨last, hlast, hisLast⟩ := strrchr_isLast a.terminated c hfuel
    refine ⟨first, last, hfirst, hlast, hisFirst, hisLast, ?_, hcount.unique hisFirst⟩
    rw [hisFirst.eq_none_iff, hisLast.eq_none_iff]
  · intro fuel hfuel
    exact ⟨strrchr_isLast a.terminated c hfuel, fun hc => strchr_nul a.terminated hc hfuel⟩

def letterA : Str where
  bytes i := if i = 0 then 97 else 0
  len := 1
  terminated := ⟨by decide, rfl⟩

/-- `strchr` does not find the terminator where the other two do. -/
theorem terminator_missed :
    ¬ SearchesRight letterA 0 ∧ (strchr letterA.bytes 0 2).value = some none ∧
      (strrchr letterA.bytes 0 2).value = some (some 1) ∧
      (memchr letterA.bytes 0 2).value = some 1 := by
  refine ⟨?_, rfl, rfl, rfl⟩
  intro h
  obtain ⟨first, last, hfirst, -, -, -, -, hcount⟩ := h 2 (by decide)
  have hnone : some none = some first := hfirst
  have hfound : some 1 = first := hcount
  cases hnone
  cases hfound

end ZStage.Libc
