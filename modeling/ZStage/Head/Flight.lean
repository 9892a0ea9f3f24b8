import Mathlib.Logic.Relation
import ZStage.Lib.StoreBuffer
import ZStage.Head.Code

/-!
The boot hart with its stores in flight. Each store of head.S and of `zstage_main`
is a message on its way to memory, the hart reads its own stores back at once, and a
`fence rw, rw` lets it on only when all its earlier stores have been delivered. The
other harts see memory.

Seen by the hart itself, a run is one on sequentially consistent memory
(`Flight.Moves.step`), and every such run is a run with stores in flight
(`Flight.exists_move`).
-/

namespace ZStage.Head

open ZStage.Lib.ByteMemory ZStage.Lib.StoreBuffer Relation

variable {b : Nat}

/-- What a store of the boot hart is for. -/
inductive Origin
  | relocation
  | main
  | other
  deriving DecidableEq, Repr

def Pc.origin : Pc b → Origin
  | .copyToLowerStore | .copyToUpperStore => .relocation
  | .main => .main
  | _ => .other

/-- The boot hart, memory, and the stores in flight from the oldest to the youngest. -/
structure Flight (b : Nat) where
  hart : Hart b
  mem : Memory (8 * b)
  pending : List (Store (8 * b) Origin)

namespace Flight

def seen (s : Flight b) : Memory (8 * b) := view s.mem s.pending

/-- The store in flight that a register store at the hart's program point becomes. -/
def issued (s : Flight b) (a v : BitVec (8 * b)) : Store (8 * b) Origin :=
  ⟨a, b, v.toNat, s.hart.pc.origin⟩

/-- One access of the boot hart. `zstage_main` makes any stores. -/
inductive Moves (img : Image b) (s : Flight b) : Flight b → Prop
  | goto {h : Hart b} (haction : s.hart.action img = .goto h) : Moves img s { s with hart := h }
  | load {a : BitVec (8 * b)} {k : BitVec (8 * b) → Hart b}
      (haction : s.hart.action img = .load a k) :
      Moves img s { s with hart := k (loadWord s.seen a) }
  | store {a v : BitVec (8 * b)} {h : Hart b} (haction : s.hart.action img = .store a v h) :
      Moves img s { s with hart := h, pending := s.pending ++ [s.issued a v] }
  | amoAddW {a : BitVec (8 * b)} {v : BitVec 32} {k : BitVec 32 → Hart b}
      (haction : s.hart.action img = .amoAddW a v k)
      (hdone : ∀ q ∈ s.pending, q.Misses a 4) :
      Moves img s { s with
        hart := k (BitVec.ofNat 32 (loadLE s.mem a 4))
        mem := storeLE s.mem a 4 (BitVec.ofNat 32 (loadLE s.mem a 4) + v).toNat }
  | fence {h : Hart b} (haction : s.hart.action img = .fence h) (hdone : s.pending = []) :
      Moves img s { s with hart := h }
  | mainStore {a : BitVec (8 * b)} {n v : Nat} (hpc : s.hart.pc = .main) :
      Moves img s { s with pending := s.pending ++ [⟨a, n, v, .main⟩] }
  | mainReturn {k h : Hart b} (hcall : s.hart.action img = .call k) (hbase : h.base = k.base)
      (hpc : h.pc = k.pc) (hsp : h.sp = k.sp) (hid : h.mhartid = k.mhartid) :
      Moves img s { s with hart := h }

def Delivers (s t : Flight b) : Prop :=
  t.hart = s.hart ∧ Deliver (s.mem, s.pending) (t.mem, t.pending)

/-- A step of a run in which the hart moves only as `p` allows, while stores are
delivered in any order. -/
inductive Step (img : Image b) (p : Flight b → Flight b → Prop) (s t : Flight b) : Prop
  | move (hallowed : p s t) (hmove : s.Moves img t)
  | deliver (hdeliver : s.Delivers t)

theorem Delivers.seen {s t : Flight b} (h : s.Delivers t) : t.seen = s.seen :=
  view_deliver h.2

theorem seen_append {h : Hart b} {m : Memory (8 * b)} {qs : List (Store (8 * b) Origin)}
    {q : Store (8 * b) Origin} :
    (Flight.mk h m (qs ++ [q])).seen = q.apply (Flight.mk h m qs).seen :=
  view_append m qs q

theorem Moves.of_store {img : Image b} {s t : Flight b} {a v : BitVec (8 * b)} {h : Hart b}
    (hmove : s.Moves img t) (hstore : s.hart.action img = .store a v h)
    (hpc : s.hart.pc ≠ .main) :
    t = { s with hart := h, pending := s.pending ++ [s.issued a v] } := by
  cases hmove with
  | store haction =>
      rw [hstore, Action.store.injEq] at haction
      obtain ⟨rfl, rfl, rfl⟩ := haction
      rfl
  | goto haction | load haction | amoAddW haction | fence haction | mainReturn haction =>
      rw [hstore] at haction
      cases haction
  | mainStore hmain => exact absurd hmain hpc

/-- For the boot hart itself memory is sequentially consistent. A move leaves the
stores in flight as they are, or it adds the store that it issues. -/
theorem Moves.step {img : Image b} {s t : Flight b} (h : s.Moves img t)
    (hpc : s.hart.pc ≠ .main) :
    Hart.step img (s.hart, s.seen) = some (t.hart, t.seen) ∧
      (t.pending = s.pending ∨ ∃ a v k, s.hart.action img = .store a v k ∧
        t.pending = s.pending ++ [s.issued a v]) := by
  cases h with
  | goto haction | load haction => exact ⟨by rw [Hart.step, haction]; rfl, Or.inl rfl⟩
  | fence haction => exact ⟨by rw [Hart.step, haction]; rfl, Or.inl rfl⟩
  | store haction =>
      refine ⟨?_, Or.inr ⟨_, _, _, haction, rfl⟩⟩
      rw [Hart.step, haction, seen_append]
      rfl
  | @amoAddW a v k haction hdone =>
      refine ⟨?_, Or.inl rfl⟩
      have hfour : 4 ≤ 2 ^ (8 * b) := by
        have hb := img.b_le
        have hpos := img.xlen
        omega
      have hold : loadLE s.mem a 4 = loadLE s.seen a 4 := by
        apply loadLE_of_unchanged hfour
        intro x hx
        exact (view_apart s.mem hdone hx).symm
      have hnew (u : Nat) : view (storeLE s.mem a 4 u) s.pending = storeLE s.seen a 4 u := by
        have hfirst := view_first s.mem s.pending [] ⟨a, 4, u, Origin.other⟩ hdone
        rw [List.append_nil, view_append] at hfirst
        exact hfirst
      simp only [Hart.step, haction, Action.exec, hold, Option.some.injEq, Prod.mk.injEq, true_and]
      exact (hnew _).symm
  | mainStore hmain => exact absurd hmain hpc
  | mainReturn hcall =>
      exact absurd (Hart.main_of_call hcall) hpc

/-- Every step on sequentially consistent memory, other than the draw of the lottery
and a fence, can be made with all stores left in flight. -/
theorem exists_move {img : Image b} {s : Flight b} {h : Hart b} {m : Memory (8 * b)}
    (hstep : Hart.step img (s.hart, s.seen) = some (h, m))
    (hstart : s.hart.pc ≠ .start) (hdone : s.hart.pc ≠ .doneFence)
    (hspin : s.hart.pc ≠ .spinFence) :
    ∃ t, s.Moves img t ∧ t.hart = h ∧ t.seen = m ∧ t.mem = s.mem ∧
      ∀ q ∈ s.pending, q ∈ t.pending := by
  cases haction : s.hart.action img with
  | goto k =>
      simp only [Hart.step, haction, Action.exec, Option.some.injEq, Prod.mk.injEq] at hstep
      exact ⟨_, .goto haction, hstep.1, hstep.2, rfl, fun _ hq => hq⟩
  | load a k =>
      simp only [Hart.step, haction, Action.exec, Option.some.injEq, Prod.mk.injEq] at hstep
      exact ⟨_, .load haction, hstep.1, hstep.2, rfl, fun _ hq => hq⟩
  | store a v k =>
      simp only [Hart.step, haction, Action.exec, Option.some.injEq, Prod.mk.injEq] at hstep
      refine ⟨_, .store haction, hstep.1, ?_, rfl, fun _ hq => List.mem_append_left _ hq⟩
      rw [seen_append]
      exact hstep.2
  | amoAddW a v k => exact absurd (Hart.start_of_amo haction) hstart
  | fence k => exact absurd (Hart.fence_points haction) (by simp [hdone, hspin])
  | call k => simp [Hart.step, haction, Action.exec] at hstep
  | halt => simp [Hart.step, haction, Action.exec] at hstep

end Flight

/-- A word that no store in flight reaches is in memory what the boot hart sees. -/
theorem Image.loadWord_mem (img : Image b) {s : Flight b} {a : BitVec (8 * b)}
    (hq : ∀ q ∈ s.pending, q.Misses a b) :
    (loadWord s.mem a : BitVec (8 * b)) = loadWord s.seen a :=
  (loadWord_view_apart s.mem img.b_le hq).symm

end ZStage.Head
