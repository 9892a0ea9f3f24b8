import ZStage.Lib.ByteMemory
import ZStage.Lib.Lexicographic

/-!
C strings: the bytes from an address on, up to the first that is zero. A string is
described by its length, which the bytes determine; a bounded length stops at a
given number of bytes. The strings of a list stand one after the other, each behind
the zero of the one before.
-/

namespace ZStage.Lib.CString

open ZStage.Lib.ByteMemory ZStage.Lib.Lexicographic

/-- The bytes from an address on. -/
abbrev Bytes := Nat → UInt8

def bytesAt {w : Nat} (m : Memory w) (a : BitVec w) : Bytes := fun i => m (a + BitVec.ofNat w i)

/-- A string of `n` bytes and its terminating zero. -/
structure Terminated (s : Bytes) (n : Nat) : Prop where
  body : ∀ i, i < n → s i ≠ 0
  nul : s n = 0

variable {s : Bytes} {n k count : Nat}

theorem Terminated.le_of_nul (h : Terminated s n) (hk : s k = 0) : n ≤ k :=
  Nat.le_of_not_lt fun hlt => h.body k hlt hk

theorem Terminated.unique (h : Terminated s n) (hk : Terminated s k) : n = k :=
  Nat.le_antisymm (h.le_of_nul hk.nul) (hk.le_of_nul h.nul)

theorem Terminated.tail (h : Terminated s (n + 1)) : Terminated (fun i => s (i + 1)) n where
  body := fun i hi => h.body (i + 1) (by omega)
  nul := h.nul

/-- Bytes that are not zero, followed by one that is. -/
theorem terminated_of_initial {text : List UInt8} (h : initial s (text.length + 1) = text ++ [0])
    (hbody : 0 ∉ text) : Terminated s text.length := by
  have hget (i : Nat) (hi : i < text.length + 1) : (text ++ [0])[i]? = some (s i) := by
    rw [← h, initial, List.getElem?_map, List.getElem?_range hi, Option.map_some]
  refine ⟨?_, ?_⟩
  · intro i hi hnul
    have hbyte := hget i (by omega)
    rw [List.getElem?_append_left hi, hnul] at hbyte
    exact hbody (List.mem_of_getElem? hbyte)
  · have hbyte := hget text.length (Nat.lt_succ_self _)
    rw [List.getElem?_append_right le_rfl, Nat.sub_self] at hbyte
    exact (Option.some.inj hbyte).symm

/-- A string with its length. -/
structure Str where
  bytes : Bytes
  len : Nat
  terminated : Terminated bytes len

/-- The bytes of a string up to its zero, which is the last of them. -/
def Str.text (a : Str) : List UInt8 := initial a.bytes (a.len + 1)

/-- The least of `count` and the index of the first zero. -/
def boundedLength (s : Bytes) (count : Nat) : Nat :=
  Nat.find (p := fun i => i = count ∨ s i = 0) ⟨count, Or.inl rfl⟩

theorem boundedLength_eq_iff :
    boundedLength s count = n ↔ (n = count ∨ s n = 0) ∧ ∀ i, i < n → i ≠ count ∧ s i ≠ 0 := by
  simp only [boundedLength, Nat.find_eq_iff, not_or]

theorem boundedLength_le (s : Bytes) (count : Nat) : boundedLength s count ≤ count :=
  Nat.find_min' _ (Or.inl rfl)

theorem Terminated.boundedLength_eq (h : Terminated s n) (hn : n ≤ count) :
    boundedLength s count = n := by
  rw [boundedLength_eq_iff]
  refine ⟨Or.inr h.nul, ?_⟩
  intro i hi
  exact ⟨by omega, h.body i hi⟩

inductive StringList (s : Bytes) (stop : Nat) : Nat → List Nat → Prop
  | nil : StringList s stop stop []
  | cons {pos n : Nat} {rest : List Nat} (head : Terminated (fun i => s (pos + i)) n)
      (tail : StringList s stop (pos + n + 1) rest) : StringList s stop pos (n :: rest)

theorem StringList.le {pos stop : Nat} {lengths : List Nat} (h : StringList s stop pos lengths) :
    pos ≤ stop := by
  induction h with
  | nil => exact le_rfl
  | cons head tail ih => omega

/-- Where the strings of a list start. -/
def starts (pos : Nat) : List Nat → List Nat
  | [] => []
  | n :: rest => pos :: starts (pos + n + 1) rest

end ZStage.Lib.CString
