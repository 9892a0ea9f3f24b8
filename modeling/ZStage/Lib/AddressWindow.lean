import Mathlib.Order.Basic

/-!
Address windows and translation through a chain of buses. A window moves an interval
of addresses to another place; a bus with a list of windows maps an address through
one that contains it, a bus without such a list maps every address to itself; a chain
of buses maps an address when each bus maps the result of the one before.
-/

namespace ZStage.Lib.AddressWindow

/-- `size` addresses from `child` on appear from `parent` on. -/
structure Window where
  child : Nat
  parent : Nat
  size : Nat
  deriving DecidableEq, Repr

def Window.Maps (w : Window) (a b : Nat) : Prop :=
  w.child ≤ a ∧ a < w.child + w.size ∧ b = w.parent + (a - w.child)

/-- What a bus makes of an address: `none` is a bus without windows. -/
inductive BusMaps : Option (List Window) → Nat → Nat → Prop
  | identity (a : Nat) : BusMaps none a a
  | window {ws : List Window} {w : Window} {a b : Nat} (mem : w ∈ ws) (maps : w.Maps a b) :
      BusMaps (some ws) a b

@[simp] theorem busMaps_none {a b : Nat} : BusMaps none a b ↔ b = a := by
  constructor
  · intro h
    cases h
    rfl
  · rintro rfl
    exact .identity _

@[simp] theorem busMaps_some {ws : List Window} {a b : Nat} :
    BusMaps (some ws) a b ↔ ∃ w ∈ ws, w.Maps a b := by
  constructor
  · intro h
    cases h with
    | window mem maps => exact ⟨_, mem, maps⟩
  · rintro ⟨w, mem, maps⟩
    exact .window mem maps

variable {ι α : Type*}

/-- The relations of a list, one after the other. -/
inductive Chain (R : ι → α → α → Prop) : List ι → α → α → Prop
  | nil (a : α) : Chain R [] a a
  | cons {i : ι} {is : List ι} {a b c : α} (head : R i a b) (tail : Chain R is b c) :
      Chain R (i :: is) a c

variable {R S : ι → α → α → Prop}

/-- A relation that implies another one wherever an invariant holds, and keeps the invariant,
implies it along a chain. -/
theorem Chain.mono {p : α → Prop} {is : List ι} {a c : α}
    (h : ∀ i ∈ is, ∀ a b, p a → R i a b → S i a b ∧ p b) (ha : p a) (hchain : Chain R is a c) :
    Chain S is a c ∧ p c := by
  induction hchain with
  | nil a => exact ⟨.nil a, ha⟩
  | cons head tail ih =>
    obtain ⟨hS, hb⟩ := h _ List.mem_cons_self _ _ ha head
    obtain ⟨htail, hc⟩ := ih (fun i hi => h i (List.mem_cons_of_mem _ hi)) hb
    exact ⟨.cons hS htail, hc⟩

end ZStage.Lib.AddressWindow
