import ZStage.Lib.ByteMemory

/-!
A program that lays out memory by copies made one after the other through one
memory, and that changes a memory of its own before, between and after them. The
result says when the list of copies can be read as if all of them were made at
once from the memory the program started with.
-/

namespace ZStage.Lib.CopySequence

open ZStage.Lib.ByteMemory

variable {w : Nat}

/-- A copy of `size` bytes. -/
structure Copy (w : Nat) where
  dst : BitVec w
  src : BitVec w
  size : Nat
  deriving DecidableEq

/-- `m'` differs from `m` inside `own` only. -/
def Within (own : BitVec w → Prop) (m m' : Memory w) : Prop :=
  ∀ x, ¬ own x → m' x = m x

theorem Within.refl (own : BitVec w → Prop) (m : Memory w) : Within own m m :=
  fun _ _ => rfl

theorem Within.trans {own : BitVec w → Prop} {m m' m'' : Memory w} (h : Within own m m')
    (h' : Within own m' m'') : Within own m m'' :=
  fun x hx => (h' x hx).trans (h x hx)

/-- The copies are made in their order, among changes inside `own`. -/
inductive Performs (own : BitVec w → Prop) : List (Copy w) → Memory w → Memory w → Prop
  | done {m m' : Memory w} (hown : Within own m m') : Performs own [] m m'
  | copy {c : Copy w} {cs : List (Copy w)} {m m1 m' : Memory w} (hown : Within own m m1)
      (hrest : Performs own cs (move c.dst c.src c.size m1) m') : Performs own (c :: cs) m m'

theorem Performs.after {own : BitVec w → Prop} {cs : List (Copy w)} {m m1 m' : Memory w}
    (hown : Within own m m1) (hp : Performs own cs m1 m') : Performs own cs m m' := by
  cases hp with
  | done h => exact .done (hown.trans h)
  | copy h hrest => exact .copy (hown.trans h) hrest

theorem Performs.append {own : BitVec w → Prop} {cs ds : List (Copy w)} {m m1 m' : Memory w}
    (hp : Performs own cs m m1) (hq : Performs own ds m1 m') : Performs own (cs ++ ds) m m' := by
  induction hp with
  | done hown => exact hq.after hown
  | copy hown _ ih => exact .copy hown (ih hq)

/-- What the copies have to do with one another and with `own`. -/
structure Ordered (own : BitVec w → Prop) (cs : List (Copy w)) : Prop where
  /-- No copy writes over another one's destination. -/
  dests_apart : cs.Pairwise fun c d => Disjoint c.dst c.size d.dst d.size
  /-- No copy writes over a source that is still to be read. -/
  sources_kept : cs.Pairwise fun c d => Disjoint c.dst c.size d.src d.size
  dest_own : ∀ c ∈ cs, ∀ x, InRange c.dst c.size x → ¬ own x
  source_own : ∀ c ∈ cs, ∀ x, InRange c.src c.size x → ¬ own x
  size_le : ∀ c ∈ cs, c.size ≤ 2 ^ w

theorem Ordered.tail {own : BitVec w → Prop} {c : Copy w} {cs : List (Copy w)}
    (h : Ordered own (c :: cs)) : Ordered own cs where
  dests_apart := (List.pairwise_cons.mp h.dests_apart).2
  sources_kept := (List.pairwise_cons.mp h.sources_kept).2
  dest_own := fun d hd => h.dest_own d (List.mem_cons_of_mem c hd)
  source_own := fun d hd => h.source_own d (List.mem_cons_of_mem c hd)
  size_le := fun d hd => h.size_le d (List.mem_cons_of_mem c hd)

/-- Bytes that are neither of `own` nor of a destination stay. -/
theorem Performs.frame {own : BitVec w → Prop} {cs : List (Copy w)} {m m' : Memory w}
    (hp : Performs own cs m m') (x : BitVec w) (hown : ¬ own x)
    (hx : ∀ c ∈ cs, ¬ InRange c.dst c.size x) : m' x = m x := by
  induction hp with
  | done h => exact h x hown
  | @copy c cs m m1 m' h _ ih =>
      rw [ih (fun d hd => hx d (List.mem_cons_of_mem c hd)),
        move_of_not_inRange _ _ _ _ _ (hx c List.mem_cons_self)]
      exact h x hown

/-- Every destination holds what its source held at the start. -/
theorem Performs.copied {own : BitVec w → Prop} {cs : List (Copy w)} {m m' : Memory w}
    (hp : Performs own cs m m') (hs : Ordered own cs) (c : Copy w) (hc : c ∈ cs) (i : Nat)
    (hi : i < c.size) :
    m' (c.dst + BitVec.ofNat w i) = m (c.src + BitVec.ofNat w i) := by
  induction hp with
  | done => cases hc
  | @copy d ds m m1 m' h hrest ih =>
      have hlt : i < 2 ^ w := Nat.lt_of_lt_of_le hi (hs.size_le c hc)
      have hsrc := hs.source_own c hc _ (inRange_add c.src c.size i hi hlt)
      rcases List.mem_cons.mp hc with rfl | hlater
      · have hdst := inRange_add c.dst c.size i hi hlt
        rw [hrest.frame _ (hs.dest_own c hc _ hdst), move_inside _ _ _ _ _ hi hlt]
        · exact h _ hsrc
        · exact fun e he => (List.pairwise_cons.mp hs.dests_apart).1 e he _ hdst
      · have hkept := (List.pairwise_cons.mp hs.sources_kept).1 c hlater
        rw [ih hs.tail hlater, move_of_not_inRange]
        · exact h _ hsrc
        · exact hkept.symm _ (inRange_add c.src c.size i hi hlt)

end ZStage.Lib.CopySequence
