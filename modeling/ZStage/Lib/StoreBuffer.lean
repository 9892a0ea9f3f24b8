import ZStage.Lib.ByteMemory

/-!
Stores on their way to memory. A processor issues its stores in program order and
reads its own ones back at once (`view`), while memory receives them in any order
that keeps stores to a common byte as they were issued (`Deliver`). A store carries
a label that says what it is for.

Deliveries are invisible to the processor that made the stores (`view_deliver`), and
memory agrees with its view on every byte that no store in flight reaches
(`view_apart`).
-/

namespace ZStage.Lib.StoreBuffer

open ZStage.Lib.ByteMemory

variable {w : Nat} {κ : Type}

/-- A store of the low `size` bytes of `value`. -/
structure Store (w : Nat) (κ : Type) where
  addr : BitVec w
  size : Nat
  value : Nat
  label : κ
  deriving DecidableEq

def Store.apply (q : Store w κ) (m : Memory w) : Memory w :=
  storeLE m q.addr q.size q.value

/-- The store writes none of the `n` bytes from `a` on. -/
def Store.Misses (q : Store w κ) (a : BitVec w) (n : Nat) : Prop :=
  Disjoint q.addr q.size a n

/-- Memory as the processor sees it, its stores in flight listed from the oldest. -/
def view (m : Memory w) : List (Store w κ) → Memory w
  | [] => m
  | q :: qs => view (q.apply m) qs

/-- One store reaches memory ahead of older ones that share no byte with it. -/
inductive Deliver : Memory w × List (Store w κ) → Memory w × List (Store w κ) → Prop
  | mk {m : Memory w} {older younger : List (Store w κ)} {q : Store w κ}
      (hapart : ∀ p ∈ older, p.Misses q.addr q.size) :
      Deliver (m, older ++ q :: younger) (q.apply m, older ++ younger)

theorem apply_of_misses (q : Store w κ) (m : Memory w) {a x : BitVec w} {n : Nat}
    (hq : q.Misses a n) (hx : InRange a n x) : q.apply m x = m x :=
  storeLE_of_not_inRange _ _ _ _ _ (fun hin => hq x hin hx)

theorem apply_comm (p q : Store w κ) (m : Memory w) (hpq : p.Misses q.addr q.size) :
    q.apply (p.apply m) = p.apply (q.apply m) := by
  funext x
  by_cases hp : InRange p.addr p.size x
  · have hq : ¬ InRange q.addr q.size x := hpq x hp
    simp [Store.apply, storeLE, hp, hq]
  · simp [Store.apply, storeLE, hp]

@[simp] theorem view_nil (m : Memory w) : view m ([] : List (Store w κ)) = m := rfl

theorem view_append (m : Memory w) (qs : List (Store w κ)) (q : Store w κ) :
    view m (qs ++ [q]) = q.apply (view m qs) := by
  induction qs generalizing m with
  | nil => rfl
  | cons p ps ih => exact ih (p.apply m)

/-- A store that no older one shares a byte with can be made first. -/
theorem view_first (m : Memory w) (older younger : List (Store w κ)) (q : Store w κ)
    (hapart : ∀ p ∈ older, p.Misses q.addr q.size) :
    view (q.apply m) (older ++ younger) = view m (older ++ q :: younger) := by
  induction older generalizing m with
  | nil => rfl
  | cons p ps ih =>
      obtain ⟨hp, hps⟩ := List.forall_mem_cons.mp hapart
      have hcomm := apply_comm p q m hp
      simp only [List.cons_append, view]
      rw [← hcomm]
      exact ih (p.apply m) hps

theorem view_deliver {s t : Memory w × List (Store w κ)} (h : Deliver s t) :
    view t.1 t.2 = view s.1 s.2 := by
  cases h with
  | mk hapart => exact view_first _ _ _ _ hapart

theorem mem_of_deliver {s t : Memory w × List (Store w κ)} (h : Deliver s t) {q : Store w κ}
    (hq : q ∈ t.2) : q ∈ s.2 := by
  cases h with
  | mk hapart =>
      simp only [List.mem_append, List.mem_cons] at hq ⊢
      rcases hq with hq | hq
      · exact Or.inl hq
      · exact Or.inr (Or.inr hq)

theorem ne_nil_of_deliver {s t : Memory w × List (Store w κ)} (h : Deliver s t) : s.2 ≠ [] := by
  cases h with
  | mk => simp

/-- Bytes that no store in flight reaches are in memory as the processor sees them. -/
theorem view_apart (m : Memory w) {qs : List (Store w κ)} {a x : BitVec w} {n : Nat}
    (hqs : ∀ q ∈ qs, q.Misses a n) (hx : InRange a n x) : view m qs x = m x := by
  induction qs generalizing m with
  | nil => rfl
  | cons q qs ih =>
      obtain ⟨hq, hrest⟩ := List.forall_mem_cons.mp hqs
      rw [view, ih (q.apply m) hrest]
      exact apply_of_misses q m hq hx

theorem loadWord_view_apart {b : Nat} (m : Memory w) {qs : List (Store w κ)} {a : BitVec w}
    (hb : b ≤ 2 ^ w) (hqs : ∀ q ∈ qs, q.Misses a b) :
    (loadWord (view m qs) a : BitVec (8 * b)) = loadWord m a := by
  apply loadWord_of_unchanged hb
  intro x hx
  exact view_apart m hqs hx

end ZStage.Lib.StoreBuffer
