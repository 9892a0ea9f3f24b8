import ZStage.Fdt.Tree
import ZStage.Libc.Strings

/-!
`fdt_stringlist_count` of libfdt over the `strnlen` that zStage gives it. The walk
stays on the starts of the strings only as long as each string ends in the first
half of what is left of the value.
-/

namespace ZStage.Fdt

open ZStage.Lib.CString ZStage.Lib.Trace ZStage.Libc

def FDT_ERR_BADVALUE : Int := 15

/-- The `while` loop of `fdt_stringlist_count`, `list` being at byte `list` of the value. Each
value of `list` that the loop tests is an event. -/
def stringlistLoop (p : Property) (list : Nat) (count : Int) : Traced Nat Int := do
  emit list ()
  if list < p.len then
    let length := (strnlen (fun i => p.mem (list + i)) (p.len - list)).value + 1
    if p.len < list + length then pure (-FDT_ERR_BADVALUE)
    else stringlistLoop p (list + length) (count + 1)
  else pure count
termination_by p.len - list

def fdtStringlistCount (fdt : Tree) (nodeoffset : Int) (property : String) : Traced Nat Int :=
  match fdtGetprop fdt nodeoffset property with
  | .error length => pure length
  | .ok p => stringlistLoop p 0 0

/-- Each string is at most half as long as the bytes from its start to the end, rounded up. -/
def HalfLong (stop pos : Nat) : List Nat → Prop
  | [] => True
  | n :: rest => n ≤ (stop - pos + 1) / 2 ∧ HalfLong stop (pos + n + 1) rest

section Walk

variable (p : Property)

theorem stringlistLoop_stop {list : Nat} (count : Int) (h : p.len ≤ list) :
    (stringlistLoop p list count).trace = [list] := by
  rw [stringlistLoop, if_neg (Nat.not_lt.mpr h)]
  rfl

theorem stringlistLoop_next {list : Nat} (count : Int)
    (h : list + (strnlen (fun i => p.mem (list + i)) (p.len - list)).value + 1 ≤ p.len) :
    (stringlistLoop p list count).trace =
      list :: (stringlistLoop p
        (list + ((strnlen (fun i => p.mem (list + i)) (p.len - list)).value + 1))
        (count + 1)).trace := by
  rw [stringlistLoop, if_pos (show list < p.len by omega)]
  simp only
  rw [if_neg (show ¬ p.len < list +
    ((strnlen (fun i => p.mem (list + i)) (p.len - list)).value + 1) by omega)]
  rfl

theorem stringlistLoop_head (list : Nat) (count : Int) :
    (stringlistLoop p list count).trace.head? = some list := by
  rw [stringlistLoop]
  rfl

/-- The walk over a list of strings is on their starts as long as each ends in the first half
of what is left. -/
theorem stringlistLoop_aligned_iff {list : Nat} {lengths : List Nat}
    (hlist : StringList p.mem p.len list lengths) (count : Int) :
    (stringlistLoop p list count).trace = starts list lengths ++ [p.len] ↔
      HalfLong p.len list lengths := by
  generalize hstop : p.len = stop at hlist
  induction hlist generalizing count with
  | nil =>
      rw [stringlistLoop_stop p count (Nat.le_of_eq hstop)]
      simp [starts, HalfLong]
  | @cons pos n rest head tail ih =>
      have hfits := tail.le
      have hlen := strnlen_value (fun i => p.mem (pos + i)) (p.len - pos)
      rw [hstop] at hlen
      simp only [starts, HalfLong, List.cons_append]
      by_cases hshort : n ≤ (stop - pos + 1) / 2
      · rw [head.boundedLength_eq hshort] at hlen
        rw [stringlistLoop_next p count (by rw [hstop, hlen]; exact hfits), hstop, hlen,
          List.cons.injEq, ← Nat.add_assoc, ih (count + 1)]
        simp [hshort]
      · -- the measured length falls short of the string
        have hhalf : boundedLength (fun i => p.mem (pos + i)) ((stop - pos + 1) / 2) =
            (stop - pos + 1) / 2 := by
          rw [boundedLength_eq_iff]
          refine ⟨Or.inl rfl, ?_⟩
          intro i hi
          exact ⟨by omega, head.body i (by omega)⟩
        rw [hhalf] at hlen
        rw [stringlistLoop_next p count (by rw [hstop, hlen]; omega), hstop, hlen]
        have hvisit := stringlistLoop_head p (pos + ((stop - pos + 1) / 2 + 1)) (count + 1)
        constructor
        · intro heq
          have htail := (List.cons.inj heq).2
          rw [htail] at hvisit
          exfalso
          have hnext : (starts (pos + n + 1) rest ++ [stop]).head? = some (pos + n + 1) := by
            cases tail with
            | nil => rfl
            | cons head tail => rfl
          rw [hnext, Option.some.injEq] at hvisit
          omega
        · rintro ⟨hle, -⟩
          exact absurd hle hshort

end Walk

/-- `strnlen` measures a string exactly when it ends in the first half of the bytes that may be
read, and the walk over a string list stays aligned exactly when that is so for every string
of the list. -/
theorem strnlen_aligned_iff (str : Bytes) (count : Nat) (fdt : Tree) (nodeoffset : Int)
    (property : String) :
    (Measures str count ↔ ∃ i, i < count ∧ i ≤ (count + 1) / 2 ∧ str i = 0) ∧
    ∀ (p : Property) (lengths : List Nat),
      fdtGetprop fdt nodeoffset property = .ok p → StringList p.mem p.len 0 lengths →
      ((fdtStringlistCount fdt nodeoffset property).trace = starts 0 lengths ++ [p.len] ↔
        HalfLong p.len 0 lengths) := by
  refine ⟨measures_iff str count, ?_⟩
  intro p lengths hprop hlist
  simp only [fdtStringlistCount, hprop]
  exact stringlistLoop_aligned_iff p hlist 0

def abc : Property := .ofBytes "compatible" [97, 98, 99, 0] (by decide)

def abcTree : Tree := .ofNodes [⟨none, [abc]⟩] (by decide) (by decide)

/-- Two characters are found of its three, and the walk goes on at its zero. -/
theorem abc_misread :
    ¬ Measures abc.mem 4 ∧ StringList abc.mem abc.len 0 [3] ∧
      (fdtStringlistCount abcTree 0 "compatible").trace ≠ starts 0 [3] ++ [abc.len] := by
  have hstring : Terminated abc.mem 3 := by
    refine ⟨?_, rfl⟩
    decide
  have hlist : StringList abc.mem abc.len 0 [3] := by
    refine .cons ?_ .nil
    simpa using hstring
  refine ⟨?_, hlist, ?_⟩
  · rintro ⟨hlen, -⟩
    rw [hstring.boundedLength_eq (by decide)] at hlen
    revert hlen
    decide
  · intro haligned
    obtain ⟨hhalf, -⟩ := (stringlistLoop_aligned_iff abc hlist 0).mp haligned
    revert hhalf
    decide

end ZStage.Fdt
