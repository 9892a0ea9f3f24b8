import ZStage.Console.Buffered
import ZStage.Console.Format

/-!
The text of a format and the count that `print` returns. The characters of a conversion
specification are not printed, except for the 'd' of "ld" and "lld"; the count is an
`int`, which a text of 2^31 characters or more wraps.
-/

namespace ZStage.Console

/-- The text that the format language prescribes: nothing is echoed. -/
def formatText (args : Args) (items : List Item) : List UInt8 :=
  itemsText (fun _ => []) args items (fetched args (convs items) .start)

theorem fetched_length (args : Args) (cs : List Conv) (va : VaList) :
    (fetched args cs va).length = cs.length := by
  induction cs generalizing va with
  | nil => rfl
  | cons conv rest ih => exact congrArg (· + 1) (ih _)

/-- What the conversions echo adds to the length of the text. -/
theorem itemsText_length (echo : Conv → List UInt8) (args : Args) (items : List Item)
    (vs : List UInt64) (h : vs.length = (convs items).length) :
    (itemsText echo args items vs).length =
      (itemsText (fun _ => []) args items vs).length +
        ((convs items).map fun conv => (echo conv).length).sum := by
  induction items generalizing vs with
  | nil => rfl
  | cons item items ih =>
    cases item with
    | literal c not_nul not_percent =>
      simp only [itemsText, convs, List.length_cons, ih vs h]
      omega
    | percent =>
      simp only [itemsText, convs, List.length_cons, ih vs h]
      omega
    | conversion spec =>
      cases vs with
      | nil => cases h
      | cons v vs =>
        have hrest := ih vs (Nat.succ_inj.1 h)
        simp only [itemsText, convs, List.length_append, hrest, List.map_cons, List.sum_cons,
          List.length_nil]
        omega

theorem itemsText_congr {echo : Conv → List UInt8} (args : Args) (items : List Item)
    (vs : List UInt64) (h : ∀ conv ∈ convs items, echo conv = []) :
    itemsText echo args items vs = itemsText (fun _ => []) args items vs := by
  induction items generalizing vs with
  | nil => rfl
  | cons item items ih =>
    cases item with
    | literal c not_nul not_percent => exact congrArg (c :: ·) (ih vs h)
    | percent => exact congrArg (ch '%' :: ·) (ih vs h)
    | conversion spec =>
      cases vs with
      | nil => rfl
      | cons v vs =>
        have hhead := h spec.conv List.mem_cons_self
        have hrest := ih vs fun conv hconv => h conv (List.mem_cons_of_mem _ hconv)
        simp only [itemsText, hhead, hrest]

theorem echo_eq_nil_iff (conv : Conv) : conv.echo = [] ↔ conv ≠ .ld ∧ conv ≠ .lld := by
  cases conv <;> decide

theorem itemsText_echo_iff (args : Args) (items : List Item) :
    itemsText Conv.echo args items (fetched args (convs items) .start) = formatText args items ↔
      ∀ conv ∈ convs items, conv ≠ .ld ∧ conv ≠ .lld := by
  constructor
  · intro heq conv hconv
    have hlength := itemsText_length Conv.echo args items (fetched args (convs items) .start)
      (fetched_length args _ _)
    have hsum : ((convs items).map fun conv => conv.echo.length).sum = 0 := by
      have := congrArg List.length heq
      rw [formatText] at this
      omega
    have hzero : conv.echo.length = 0 :=
      List.sum_eq_zero_iff_forall_eq_nat.1 hsum _ (List.mem_map_of_mem hconv)
    exact (echo_eq_nil_iff conv).1 (List.length_eq_zero_iff.1 hzero)
  · exact fun h => itemsText_congr args items _ fun conv hconv =>
      (echo_eq_nil_iff conv).2 (h conv hconv)

theorem int_natCast_iff (n : Nat) : int n = n ↔ n < 2 ^ 31 := by
  rw [int]
  constructor
  · intro h
    have := Int.bmod_lt (x := (n : Int)) (m := 2 ^ 32) (by decide)
    omega
  · exact fun h => Int.bmod_eq_of_le (by omega) (by omega)

/-- The text and the count of `sprintf` are those of the format language exactly when no
conversion is "ld" or "lld" and the text has fewer than 2^31 characters. -/
theorem format_parsed_iff (args : Args) (items : List Item) (buf : Nat → UInt8) :
    ∃ o n, sprintf args (formatOf items) buf = some (o, n) ∧
      (o.bytes o.pos = formatText args items ∧ n = (formatText args items).length ↔
        (∀ conv ∈ convs items, conv ≠ .ld ∧ conv ≠ .lld) ∧
          (formatText args items).length < 2 ^ 31) := by
  have hrun := print_tracks bufferHolds_tracks args (formatOf items) ⟨buf, 0, none⟩ ⟨rfl, rfl⟩
  have htext := printLoop_items args items [] 0 .start
  have hstart : int 0 = 0 := rfl
  simp only [hstart, List.nil_append, Int.zero_add] at htext
  rw [print, htext] at hrun
  generalize hprint : print bufferDest args (formatOf items) ⟨buf, 0, none⟩ = result at hrun
  cases hrun with
  | @some a st hst =>
    refine ⟨st.out, st.pc, by rw [sprintf, hprint]; rfl, ?_⟩
    rw [hst.out.2, ← hst.pc, itemsText_echo_iff, and_congr_right_iff]
    intro hnone
    rw [(itemsText_echo_iff args items).2 hnone]
    rw [int_natCast_iff]

/-- The 'd' of "%ld" is printed behind the number. -/
theorem letter_echoed :
    (sprintf oneArg (formatOf [.conversion ⟨false, false, 0, [], .ld, by decide⟩])
        fun _ => 0).map (fun r => (r.1.bytes r.1.pos, r.2)) = some (chars "42d", 3) ∧
      formatText oneArg [.conversion ⟨false, false, 0, [], .ld, by decide⟩] = chars "42" := by
  decide +kernel

end ZStage.Console
