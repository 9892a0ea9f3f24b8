import Mathlib.Logic.Relation

/-!
Computations that log what they touch. `Traced ε α` is a value with the list of
events on the way to it, so a bound on every access of a function is a statement
about its trace and its value is the function without the log. `Safe` says that
every event has a property; it splits along the binds.
-/

namespace ZStage.Lib.Trace

universe u v

/-- A value with the events on the way to it. -/
structure Traced (ε : Type u) (α : Type v) where
  value : α
  trace : List ε

variable {ε : Type u} {α β : Type v}

instance : Monad (Traced ε) where
  pure a := ⟨a, []⟩
  bind x f := ⟨(f x.value).value, x.trace ++ (f x.value).trace⟩

/-- One event, answering `a`. -/
def emit (e : ε) (a : α) : Traced ε α := ⟨a, [e]⟩

@[simp] theorem value_pure (a : α) : (pure a : Traced ε α).value = a := rfl

@[simp] theorem value_bind (x : Traced ε α) (f : α → Traced ε β) :
    (x >>= f).value = (f x.value).value := rfl

@[simp] theorem value_map (x : Traced ε α) (f : α → β) : (f <$> x).value = f x.value := rfl

@[simp] theorem value_emit (e : ε) (a : α) : (emit e a).value = a := rfl

@[simp] theorem trace_pure (a : α) : (pure a : Traced ε α).trace = [] := rfl

theorem trace_bind (x : Traced ε α) (f : α → Traced ε β) :
    (x >>= f).trace = x.trace ++ (f x.value).trace := rfl

theorem trace_emit_bind (e : ε) (a : α) (f : α → Traced ε β) :
    (emit e a >>= f).trace = e :: (f a).trace := rfl

/-- Every event of the trace has the property. -/
def Traced.Safe (p : ε → Prop) (x : Traced ε α) : Prop := ∀ e ∈ x.trace, p e

variable {p : ε → Prop}

@[simp] theorem safe_pure (a : α) : (pure a : Traced ε α).Safe p :=
  fun _ he => absurd he List.not_mem_nil

@[simp] theorem safe_emit (e : ε) (a : α) : (emit e a).Safe p ↔ p e := by
  simp [Traced.Safe, emit]

/-- A sequence is safe when both parts are, the second one run on the value of the first. -/
@[simp] theorem safe_bind (x : Traced ε α) (f : α → Traced ε β) :
    (x >>= f).Safe p ↔ x.Safe p ∧ (f x.value).Safe p := by
  show (∀ e ∈ x.trace ++ (f x.value).trace, p e) ↔ _
  simp only [List.mem_append, Traced.Safe]
  exact ⟨fun h => ⟨fun e he => h e (Or.inl he), fun e he => h e (Or.inr he)⟩,
    fun h e he => he.elim (h.1 e) (h.2 e)⟩

theorem value_emit_bind (e : ε) (a : α) (f : α → Traced ε β) :
    (emit e a >>= f).value = (f a).value := rfl

theorem safe_emit_bind (e : ε) (a : α) (f : α → Traced ε β) :
    (emit e a >>= f).Safe p ↔ p e ∧ (f a).Safe p := by
  rw [safe_bind, safe_emit, value_emit]

@[simp] theorem safe_map (x : Traced ε α) (f : α → β) : (f <$> x).Safe p ↔ x.Safe p := by
  show (∀ e ∈ x.trace ++ [], p e) ↔ _
  rw [List.append_nil]
  rfl

instance [DecidablePred p] (x : Traced ε α) : Decidable (x.Safe p) :=
  inferInstanceAs (Decidable (∀ e ∈ x.trace, p e))

/-! ## Fuel

A computation whose loops have a bound on their rounds; `none` stands for one that has not
ended then. -/

/-- Goes on with the result, if there is one. -/
def Traced.andThen (x : Traced ε (Option α)) (f : α → Traced ε (Option β)) :
    Traced ε (Option β) := do
  match ← x with
  | none => pure none
  | some a => f a

/-- The computation has no other result than `r`, it has that one when there is `enough`
fuel, and its events have the property in any case. -/
structure Yields (p : ε → Prop) (enough : Prop) (x : Traced ε (Option α)) (r : α) : Prop where
  only : ∀ a ∈ x.value, a = r
  isSome : enough → x.value.isSome
  safe : x.Safe p

section Yields

variable {enough : Prop}

theorem yields_pure (r : α) : Yields p enough (pure (some r)) r where
  only _ ha := (Option.mem_some_iff.1 ha).symm
  isSome _ := rfl
  safe := safe_pure _

/-- Without fuel nothing is promised. -/
theorem yields_none (h : ¬enough) (r : α) : Yields p enough (pure none) r where
  only _ ha := nomatch ha
  isSome henough := absurd henough h
  safe := safe_pure _

theorem Yields.bind {x : Traced ε α} {f : α → Traced ε (Option β)} {r : β} (hx : x.Safe p)
    (hf : Yields p enough (f x.value) r) : Yields p enough (x >>= f) r where
  only := hf.only
  isSome := hf.isSome
  safe := (safe_bind x f).2 ⟨hx, hf.safe⟩

theorem Yields.andThen {x : Traced ε (Option α)} {f : α → Traced ε (Option β)} {a : α} {r : β}
    (hx : Yields p enough x a) (hf : Yields p enough (f a) r) :
    Yields p enough (x.andThen f) r := by
  have hvalue := hx.only
  have hsome := hx.isSome
  cases hresult : x.value with
  | none =>
    have hnone : ¬enough := by
      intro henough
      have hcontra := hsome henough
      rw [hresult] at hcontra
      cases hcontra
    refine Yields.bind hx.safe ?_
    rw [hresult]
    exact yields_none hnone r
  | some b =>
    obtain rfl : b = a := hvalue b hresult
    refine Yields.bind hx.safe ?_
    rw [hresult]
    exact hf

theorem Yields.weaken {enough' : Prop} {x : Traced ε (Option α)} {r : α}
    (hx : Yields p enough x r) (h : enough' → enough) : Yields p enough' x r where
  only := hx.only
  isSome := fun henough => hx.isSome (h henough)
  safe := hx.safe

/-- What a sequence with a result has run, behind a computation that yields `a`. -/
theorem Yields.andThen_isSome {x : Traced ε (Option α)} {f : α → Traced ε (Option β)} {a : α}
    (hx : Yields p enough x a) (hsome : (x.andThen f).value.isSome) :
    (f a).value.isSome ∧ ((x.andThen f).Safe p → (f a).Safe p) := by
  cases hresult : x.value with
  | none =>
    rw [Traced.andThen, value_bind, hresult] at hsome
    cases hsome
  | some b =>
    obtain rfl : b = a := hx.only b hresult
    rw [Traced.andThen, value_bind, hresult] at hsome
    refine ⟨hsome, ?_⟩
    intro hsafe
    rw [Traced.andThen, safe_bind, hresult] at hsafe
    exact hsafe.2

end Yields

/-! ## Loops -/

section Places

variable {q : Nat → Prop} {i : Nat}

/-- What holds at every place from `i` on holds at `i`, and at every place behind it. -/
theorem forall_from_iff : (∀ j, i ≤ j → q j) ↔ q i ∧ ∀ j, i + 1 ≤ j → q j := by
  constructor
  · exact fun h => ⟨h i (Nat.le_refl i), fun j hj => h j (Nat.le_of_succ_le hj)⟩
  · rintro ⟨hi, hrest⟩ j hj
    rcases Nat.lt_or_eq_of_le hj with hlt | rfl
    · exact hrest j hlt
    · exact hi

theorem forall_at_iff : (∀ j, i ≤ j → j ≤ i → q j) ↔ q i := by
  constructor
  · exact fun h => h i (Nat.le_refl i) (Nat.le_refl i)
  · intro hi j hij hji
    rwa [Nat.le_antisymm hji hij]

end Places

variable {σ : Type u} {r : σ → σ → Prop}

open Relation in
/-- What holds at every state that a loop reaches holds at the first one, and at every state
reached after one round. -/
theorem forall_reached_iff {q : σ → Prop} {s : σ} :
    (∀ t, ReflTransGen r s t → q t) ↔
      q s ∧ ∀ s', r s s' → ∀ t, ReflTransGen r s' t → q t := by
  constructor
  · exact fun h => ⟨h s .refl, fun s' hs t ht => h t (.head hs ht)⟩
  · rintro ⟨hs, hnext⟩ t ht
    rcases ht.cases_head with rfl | ⟨s', hstep, hrest⟩
    · exact hs
    · exact hnext s' hstep t hrest

end ZStage.Lib.Trace
