import ZStage.Libc.Strings

/-!
The order of `strcmp`, `strncmp` and `memcmp`. All three return the difference at the
first byte that decides, so the sign of a result is that of the lexicographic order on
the bytes that were to be compared: the texts of the strings with their zeros, the same
cut at `count`, or all bytes of the buffers.
-/

namespace ZStage.Libc

open ZStage.Lib.CString ZStage.Lib.Lexicographic ZStage.Lib.Trace

/-- The rounds are the count. -/
def strncmp (a b : Bytes) (count : Nat) : Traced Nat Int := compareLoop Alike 0 id a b count 0

def memcmp (s1 s2 : Bytes) (count : Nat) : Traced Nat Int := compareLoop Eq 0 id s1 s2 count 0

/-- What `strcmp` returns on two strings. -/
def strcmpResult (a b : Str) : Int := ((strcmp a.bytes b.bytes (a.len + 1)).value).getD 0

/-! ## The place that decides -/

/-- The sign of a difference of characters is their order. -/
theorem compare_difference (x y : UInt8) :
    compare ((x.toNat : Int) - y.toNat) 0 = compare x y := by
  rcases Nat.lt_trichotomy x.toNat y.toNat with hlt | heq | hgt
  · have hdiff : (x.toNat : Int) - y.toNat < 0 := by omega
    rw [Std.compare_eq_lt.2 hdiff, Std.compare_eq_lt.2 (UInt8.lt_iff_toNat_lt.2 hlt)]
  · rw [UInt8.toNat_inj.1 heq, Int.sub_self, Std.ReflOrd.compare_self, Std.ReflOrd.compare_self]
  · have hdiff : 0 < (x.toNat : Int) - y.toNat := by omega
    rw [Std.compare_eq_gt.2 hdiff, Std.compare_eq_gt.2 (UInt8.lt_iff_toNat_lt.2 hgt)]

section Strings

variable {a b : Str}

/-- Two strings differ or both end, at the latest at the first zero. -/
theorem strings_stop (a b : Str) :
    ∃ k, k ≤ a.len ∧ k ≤ b.len ∧ StopsAt Alike a.bytes b.bytes k := by
  rcases stops_or_undecided Alike a.bytes b.bytes (min a.len b.len + 1) with
    ⟨k, hk, hstop⟩ | hgo
  · exact ⟨k, by omega, by omega, hstop⟩
  · obtain ⟨hsame, hbody⟩ := hgo (min a.len b.len) (Nat.lt_succ_self _)
    rcases Nat.le_total a.len b.len with hle | hle
    · rw [Nat.min_eq_left hle] at hbody
      exact absurd a.terminated.nul hbody
    · rw [Nat.min_eq_right hle] at hsame hbody
      exact absurd (hsame.trans b.terminated.nul) hbody

theorem strcmpResult_eq {k : Nat} (h : StopsAt Alike a.bytes b.bytes k) (ha : k ≤ a.len) :
    strcmpResult a b = (a.bytes k).toNat - (b.bytes k).toNat := by
  rw [strcmpResult, strcmp_value h (Nat.lt_succ_of_le ha), Option.getD_some]

theorem strcmp_returns (a b : Str) {fuel : Nat} (hfuel : min a.len b.len < fuel) :
    (strcmp a.bytes b.bytes fuel).value = some (strcmpResult a b) := by
  obtain ⟨k, ha, hb, hstop⟩ := strings_stop a b
  rw [strcmp_value hstop (by omega), strcmpResult_eq hstop ha]

/-- The texts, cut at any length, are equal up to the byte that decides, and compare behind it
as this does. -/
theorem compare_take_text {k : Nat} (h : StopsAt Alike a.bytes b.bytes k) (ha : k ≤ a.len)
    (hb : k ≤ b.len) (n : Nat) :
    compare (a.text.take n) (b.text.take n) =
      if k < n then compare (a.bytes k) (b.bytes k) else .eq := by
  have hsame (i : Nat) (hi : i < k) : a.bytes i = b.bytes i := (h.before i hi).1
  rw [Str.text, Str.text, take_initial, take_initial]
  split
  · next hn =>
    by_cases hend : a.bytes k = b.bytes k
    · -- the strings end together
      have hnul : a.bytes k = 0 := by
        by_contra hbody
        exact h.stop ⟨hend, hbody⟩
      have hlenA : a.len = k := Nat.le_antisymm (a.terminated.le_of_nul hnul) ha
      have hlenB : b.len = k := Nat.le_antisymm (b.terminated.le_of_nul (hend ▸ hnul)) hb
      have htext : initial a.bytes (min n (k + 1)) = initial b.bytes (min n (k + 1)) := by
        rw [initial_eq_iff]
        intro i hi
        rcases Nat.lt_or_eq_of_le (show i ≤ k by omega) with hlt | rfl
        · exact hsame i hlt
        · exact hend
      rw [hlenA, hlenB, htext, hend, Std.ReflOrd.compare_self, Std.ReflOrd.compare_self]
    · exact compare_initial_of_differ (by omega) (by omega) hsame hend
  · next hn =>
    have htext : initial a.bytes n = initial b.bytes n := by
      rw [initial_eq_iff]
      exact fun i hi => hsame i (by omega)
    rw [Nat.min_eq_left (by omega), Nat.min_eq_left (by omega), htext, Std.ReflOrd.compare_self]

theorem strcmp_sign (a b : Str) : compare (strcmpResult a b) 0 = compare a.text b.text := by
  obtain ⟨k, ha, hb, hstop⟩ := strings_stop a b
  have hcut := compare_take_text hstop ha hb (max a.len b.len + 1)
  have htext (s : Str) (hs : s.len ≤ max a.len b.len) :
      s.text.take (max a.len b.len + 1) = s.text := by
    apply List.take_of_length_le
    rw [Str.text, initial_length]
    exact Nat.succ_le_succ hs
  rw [if_pos (by omega), htext a (Nat.le_max_left _ _), htext b (Nat.le_max_right _ _)] at hcut
  rw [hcut, strcmpResult_eq hstop ha, compare_difference]

theorem strncmp_eq {k : Nat} (h : StopsAt Alike a.bytes b.bytes k) (n : Nat) :
    (strncmp a.bytes b.bytes n).value =
      if k < n then ((a.bytes k).toNat - (b.bytes k).toNat : Int) else 0 := by
  rw [strncmp]
  split
  · next hn => exact compareLoop_value 0 id h hn
  · next hn =>
    have hgo : Undecided Alike a.bytes b.bytes n := fun i hi => h.before i (by omega)
    exact compareLoop_value_exhausted 0 id hgo

theorem strncmp_sign (a b : Str) (n : Nat) :
    compare (strncmp a.bytes b.bytes n).value 0 = compare (a.text.take n) (b.text.take n) := by
  obtain ⟨k, ha, hb, hstop⟩ := strings_stop a b
  rw [compare_take_text hstop ha hb, strncmp_eq hstop]
  split
  · exact compare_difference _ _
  · exact Std.ReflOrd.compare_self

theorem strncmp_whole (a b : Str) {n : Nat} (hn : min a.len b.len < n) :
    (strncmp a.bytes b.bytes n).value = strcmpResult a b := by
  obtain ⟨k, ha, hb, hstop⟩ := strings_stop a b
  rw [strncmp_eq hstop, if_pos (by omega), strcmpResult_eq hstop ha]

end Strings

/-! ## The order of the strings -/

theorem strcmpResult_le_iff (a b : Str) :
    strcmpResult a b ≤ 0 ↔ (compare a.text b.text).isLE := by
  rw [← strcmp_sign, Std.isLE_compare]

theorem strcmpResult_eq_zero_iff (a b : Str) : strcmpResult a b = 0 ↔ a.text = b.text := by
  rw [← Std.LawfulEqOrd.compare_eq_iff_eq (a := a.text), ← strcmp_sign,
    Std.LawfulEqOrd.compare_eq_iff_eq]

theorem strcmpResult_swap (a b : Str) :
    compare (strcmpResult a b) 0 = (compare (strcmpResult b a) 0).swap := by
  rw [strcmp_sign, strcmp_sign]
  exact Std.OrientedOrd.eq_swap

theorem strcmpResult_trans {a b c : Str} (hab : strcmpResult a b ≤ 0)
    (hbc : strcmpResult b c ≤ 0) : strcmpResult a c ≤ 0 := by
  rw [strcmpResult_le_iff] at *
  exact Std.TransOrd.isLE_trans hab hbc

/-! ## Buffers -/

section Buffers

variable {s t : Bytes} {n : Nat}

/-- `memcmp` returns the difference at the first byte that differs. -/
theorem memcmp_cases (s t : Bytes) (n : Nat) :
    (∃ k, k < n ∧ StopsAt Eq s t k ∧
      (memcmp s t n).value = ((s k).toNat - (t k).toNat : Int)) ∨
      Undecided Eq s t n ∧ (memcmp s t n).value = 0 := by
  rcases stops_or_undecided Eq s t n with ⟨k, hk, hstop⟩ | hgo
  · exact Or.inl ⟨k, hk, hstop, compareLoop_value 0 id hstop hk⟩
  · exact Or.inr ⟨hgo, compareLoop_value_exhausted 0 id hgo⟩

theorem memcmp_sign (s t : Bytes) (n : Nat) :
    compare (memcmp s t n).value 0 = compare (initial s n) (initial t n) := by
  rcases memcmp_cases s t n with ⟨k, hk, hstop, hvalue⟩ | ⟨hgo, hvalue⟩
  · rw [hvalue, compare_initial_of_differ hk hk hstop.before hstop.stop, compare_difference]
  · rw [hvalue, initial_eq_iff.2 hgo, Std.ReflOrd.compare_self, Std.ReflOrd.compare_self]

/-- Without a zero in the buffers the loop of `strncmp` is that of `memcmp`. -/
theorem memcmp_eq_strncmp (h : ∀ i, i < n → s i ≠ 0 ∧ t i ≠ 0) :
    (memcmp s t n).value = (strncmp s t n).value := by
  rcases memcmp_cases s t n with ⟨k, hk, hstop, hvalue⟩ | ⟨hgo, hvalue⟩
  · have halike : StopsAt Alike s t k := by
      refine ⟨?_, fun hgo => hstop.stop hgo.1⟩
      intro i hi
      exact ⟨hstop.before i hi, (h i (by omega)).1⟩
    rw [hvalue, strncmp, compareLoop_value 0 id halike hk, id]
  · have halike : Undecided Alike s t n := fun i hi => ⟨hgo i hi, (h i hi).1⟩
    rw [hvalue, strncmp, compareLoop_value_exhausted 0 id halike]

end Buffers

/-- The three functions compare by one lexicographic order, cut at the count where there is
one: on strings it is total, and none of them reads behind the byte that decides. -/
theorem comparisons_lexicographic :
    (∀ a b : Str,
      (∀ fuel, min a.len b.len < fuel →
        (strcmp a.bytes b.bytes fuel).value = some (strcmpResult a b) ∧
        (strcmp a.bytes b.bytes fuel).Safe (Undecided Alike a.bytes b.bytes)) ∧
      compare (strcmpResult a b) 0 = compare a.text b.text ∧
      compare (strcmpResult a b) 0 = (compare (strcmpResult b a) 0).swap ∧
      (strcmpResult a b = 0 ↔ a.text = b.text) ∧
      ∀ n, compare (strncmp a.bytes b.bytes n).value 0 =
          compare (a.text.take n) (b.text.take n) ∧
        (n = 0 → (strncmp a.bytes b.bytes n).value = 0) ∧
        (min a.len b.len < n → (strncmp a.bytes b.bytes n).value = strcmpResult a b) ∧
        (strncmp a.bytes b.bytes n).Safe
          fun i => i < n ∧ Undecided Alike a.bytes b.bytes i) ∧
    (∀ a b c : Str, strcmpResult a b ≤ 0 → strcmpResult b c ≤ 0 → strcmpResult a c ≤ 0) ∧
    ∀ (s t : Bytes) (n : Nat),
      compare (memcmp s t n).value 0 = compare (initial s n) (initial t n) ∧
      ((∀ i, i < n → s i ≠ 0 ∧ t i ≠ 0) → (memcmp s t n).value = (strncmp s t n).value) ∧
      (memcmp s t n).Safe fun i => i < n ∧ Undecided Eq s t i := by
  refine ⟨?_, fun a b c => strcmpResult_trans, ?_⟩
  · intro a b
    refine ⟨?_, strcmp_sign a b, strcmpResult_swap a b, strcmpResult_eq_zero_iff a b, ?_⟩
    · intro fuel hfuel
      refine ⟨strcmp_returns a b hfuel, ?_⟩
      rw [strcmp, strcmpFrom_eq]
      exact fun i hi => (compareLoop_safe none some a.bytes b.bytes fuel i hi).2
    · intro n
      refine ⟨strncmp_sign a b n, ?_, strncmp_whole a b, ?_⟩
      · rintro rfl
        rfl
      · exact compareLoop_safe 0 id a.bytes b.bytes n
  · intro s t n
    exact ⟨memcmp_sign s t n, memcmp_eq_strncmp, compareLoop_safe 0 id s t n⟩

end ZStage.Libc
