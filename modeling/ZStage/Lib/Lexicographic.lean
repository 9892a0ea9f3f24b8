import Mathlib.Data.List.Basic

/-!
The lexicographic order on the first elements of sequences. Two of them compare as
their elements do at the first place where these differ, and a comparison that is cut
off in front of that place finds no difference.
-/

namespace ZStage.Lib.Lexicographic

universe u

variable {α : Type u} {s t : Nat → α} {k n m : Nat}

/-- The first `n` elements of a sequence. -/
def initial (s : Nat → α) (n : Nat) : List α := (List.range n).map s

theorem initial_succ (s : Nat → α) (n : Nat) :
    initial s (n + 1) = s 0 :: initial (fun i => s (i + 1)) n := by
  rw [initial, List.range_succ_eq_map, List.map_cons, List.map_map]
  rfl

theorem initial_length (s : Nat → α) (n : Nat) : (initial s n).length = n := by
  rw [initial, List.length_map, List.length_range]

theorem take_initial (s : Nat → α) (k n : Nat) :
    (initial s n).take k = initial s (min k n) := by
  rw [initial, ← List.map_take, List.take_range]
  rfl

theorem initial_of_append {l rest : List α} (h : initial s n = l ++ rest) :
    initial s l.length = l := by
  have hlength := congrArg List.length h
  have hcut := congrArg (List.take l.length) h
  rw [initial_length, List.length_append] at hlength
  rwa [take_initial, Nat.min_eq_left (by omega), List.take_left] at hcut

/-- Sequences agree up to a length when they agree at every place. -/
theorem initial_eq_iff : initial s n = initial t n ↔ ∀ i, i < n → s i = t i := by
  simp only [initial, List.map_inj_left, List.mem_range]

variable [Ord α]

/-- The first place where two sequences differ decides. -/
theorem compare_initial_of_differ [Std.LawfulEqOrd α] (hn : k < n) (hm : k < m)
    (hsame : ∀ i, i < k → s i = t i) (hdiffer : s k ≠ t k) :
    compare (initial s n) (initial t m) = compare (s k) (t k) := by
  induction k generalizing s t n m with
  | zero =>
      obtain ⟨n, rfl⟩ := Nat.exists_eq_add_one_of_ne_zero (show n ≠ 0 by omega)
      obtain ⟨m, rfl⟩ := Nat.exists_eq_add_one_of_ne_zero (show m ≠ 0 by omega)
      rw [initial_succ, initial_succ, List.compare_cons_cons]
      cases hhead : compare (s 0) (t 0) with
      | eq => exact absurd (Std.LawfulEqOrd.eq_of_compare hhead) hdiffer
      | lt => rfl
      | gt => rfl
  | succ k ih =>
      obtain ⟨n, rfl⟩ := Nat.exists_eq_add_one_of_ne_zero (show n ≠ 0 by omega)
      obtain ⟨m, rfl⟩ := Nat.exists_eq_add_one_of_ne_zero (show m ≠ 0 by omega)
      have hhead : compare (s 0) (t 0) = .eq := by
        rw [hsame 0 (Nat.succ_pos k)]
        exact Std.ReflOrd.compare_self
      rw [initial_succ, initial_succ, List.compare_cons_cons, hhead]
      exact ih (by omega) (by omega) (fun i hi => hsame (i + 1) (by omega)) hdiffer

end ZStage.Lib.Lexicographic
