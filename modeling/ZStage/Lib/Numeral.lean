import Mathlib.Data.Nat.Digits.Lemmas

/-!
Numerals: the digits of a number in a base, the most significant one first, in any
alphabet. `numeral` writes a number without leading zeros, and `read` is the number that
a list of digits spells, with leading zeros or without.
-/

namespace ZStage.Lib.Numeral

universe u

variable {α : Type u} {digit : Nat → α} {value : α → Nat} {b : Nat}

def numeral (digit : Nat → α) (b n : Nat) : List α :=
  if n = 0 then [digit 0] else (Nat.digits b n).reverse.map digit

def read (value : α → Nat) (b : Nat) (l : List α) : Nat := l.foldl (fun n c => n * b + value c) 0

theorem numeral_of_ne {n : Nat} (h : n ≠ 0) :
    numeral digit b n = (Nat.digits b n).reverse.map digit := if_neg h

theorem numeral_length_le (hb : 1 < b) {n k : Nat} (hk : 1 ≤ k) (hn : n < b ^ k) :
    (numeral digit b n).length ≤ k := by
  rw [numeral]
  split
  · exact hk
  · rw [List.length_map, List.length_reverse]
    exact (Nat.digits_length_le_iff hb n).2 hn

theorem mem_numeral (hb : 1 < b) {n : Nat} {c : α} (h : c ∈ numeral digit b n) :
    ∃ t < b, digit t = c := by
  rw [numeral] at h
  split at h
  · exact ⟨0, by omega, (List.mem_singleton.1 h).symm⟩
  · obtain ⟨t, ht, rfl⟩ := List.mem_map.1 h
    exact ⟨t, Nat.digits_lt_base hb (List.mem_reverse.1 ht), rfl⟩

theorem numeral_ne_nil {n : Nat} : numeral digit b n ≠ [] := by
  by_cases hn : n = 0
  · simp [numeral, hn]
  · rw [numeral_of_ne hn]
    simpa using Nat.digits_ne_nil_iff_ne_zero.2 hn

/-- A numeral begins with the digit zero only as the numeral of zero. -/
theorem numeral_head (hb : 1 < b) (hdigit : ∀ t < b, digit t = digit 0 → t = 0) {n : Nat}
    (h : (numeral digit b n).head? = some (digit 0)) : numeral digit b n = [digit 0] := by
  by_cases hn : n = 0
  · exact if_pos hn
  · have hne : Nat.digits b n ≠ [] := Nat.digits_ne_nil_iff_ne_zero.2 hn
    rw [numeral_of_ne hn, List.head?_map, List.head?_reverse, List.getLast?_eq_some_getLast hne,
      Option.map_some, Option.some.injEq] at h
    have hlast := Nat.digits_lt_base hb (List.getLast_mem hne)
    exact absurd (hdigit _ hlast h) (Nat.getLast_digit_ne_zero b hn)

/-- Reading a numeral with zeros in front of it gives the number. -/
theorem read_replicate_numeral (hb : 1 < b) (hvalue : ∀ t < b, value (digit t) = t) (k n : Nat) :
    read value b (List.replicate k (digit 0) ++ numeral digit b n) = n := by
  have hzero : value (digit 0) = 0 := hvalue 0 (by omega)
  have hzeros : (List.replicate k (digit 0)).foldl (fun n c => n * b + value c) 0 = 0 := by
    induction k with
    | zero => rfl
    | succ k ih => rw [List.replicate_succ, List.foldl_cons, hzero, Nat.zero_mul, ih]
  have hdigits (l : List Nat) (hl : ∀ t ∈ l, t < b) :
      (l.reverse.map digit).foldl (fun n c => n * b + value c) 0 = Nat.ofDigits b l := by
    induction l with
    | nil => rfl
    | cons t l ih =>
      have hhead := hvalue t (hl t List.mem_cons_self)
      have hrest := ih fun t' ht' => hl t' (List.mem_cons_of_mem t ht')
      rw [List.reverse_cons, List.map_append, List.foldl_append, hrest, Nat.ofDigits_cons]
      simp only [List.map_cons, List.map_nil, List.foldl_cons, List.foldl_nil, hhead]
      rw [Nat.mul_comm, Nat.add_comm]
  rw [read, List.foldl_append, hzeros]
  by_cases hn : n = 0
  · simp [numeral, hn, hzero]
  · rw [numeral_of_ne hn, hdigits _ fun t ht => Nat.digits_lt_base hb ht, Nat.ofDigits_digits]

end ZStage.Lib.Numeral
