import Mathlib.Logic.Function.Basic
import Mathlib.Logic.Relation
import ZStage.Head.Code

/-!
Any number of harts over one sequentially consistent memory. A step of the
system is one access of one hart, in any order of the harts.
-/

namespace ZStage.Head

open ZStage.Lib.ByteMemory Relation

variable {b : Nat} {ι : Type} [DecidableEq ι]

/-- The shared memory and every hart. -/
structure System (b : Nat) (ι : Type) where
  mem : Memory (8 * b)
  harts : ι → Hart b

namespace System

/-- The system after hart `i` became `h` and memory became `m`. -/
def set (s : System b ι) (i : ι) (h : Hart b) (m : Memory (8 * b)) : System b ι :=
  ⟨m, Function.update s.harts i h⟩

@[simp] theorem set_mem (s : System b ι) (i : ι) (h : Hart b) (m : Memory (8 * b)) :
    (s.set i h m).mem = m := rfl

@[simp] theorem set_harts_same (s : System b ι) (i : ι) (h : Hart b) (m : Memory (8 * b)) :
    (s.set i h m).harts i = h := by
  simp [set]

theorem set_harts_ne (s : System b ι) (i j : ι) (h : Hart b) (m : Memory (8 * b))
    (hne : j ≠ i) : (s.set i h m).harts j = s.harts j := by
  simp [set, hne]

@[simp] theorem set_set (s : System b ι) (i : ι) (h h' : Hart b) (m m' : Memory (8 * b)) :
    (s.set i h m).set i h' m' = s.set i h' m' := by
  simp [set]

theorem set_self (s : System b ι) (i : ι) : s.set i (s.harts i) s.mem = s := by
  simp [set]

end System

end ZStage.Head
