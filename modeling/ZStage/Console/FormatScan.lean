import ZStage.Console.Buffered
import ZStage.Console.PrintAt

/-!
Where the scan of a format ends. A round of the loop reads characters up to the
terminator, also where it looks one or two characters ahead. It leaves the format pointer
behind the terminator in one case: the format ends in the flags or the width of a
conversion (`CutShort`), for then no branch applies and the loop header steps over the
terminator.
-/

namespace ZStage.Console

open ZStage.Lib.CString ZStage.Lib.Trace

variable {σ : Type}

/-! ## Flags and width -/

/-- A '-', a '#' and digits, each of them optional. -/
def SpecOnly (p : List UInt8) : Prop :=
  ∃ (minus alternate : Bool) (digits : List UInt8), (∀ c ∈ digits, isDigit c) ∧
    p = (if minus then [ch '-'] else []) ++ ((if alternate then [ch '#'] else []) ++ digits)

/-- A zero is a digit, so the width loop would go over the zeros as well. -/
theorem dropWhile_zeros (fmt : List UInt8) :
    (fmt.dropWhile (· = ch '0')).dropWhile isDigit = fmt.dropWhile isDigit := by
  induction fmt with
  | nil => rfl
  | cons c rest ih =>
    by_cases hc : c = ch '0'
    · subst hc
      rw [List.dropWhile_cons_of_pos (by decide), List.dropWhile_cons_of_pos (by decide), ih]
    · rw [List.dropWhile_cons_of_neg (by simpa using hc)]

theorem scanSpec_rest (p : List UInt8) :
    (scanSpec p).fmt = (scanFlag (ch '#') (scanFlag (ch '-') p).2).2.dropWhile isDigit := by
  rw [scanSpec, scanWidth_eq, scanZeros_eq]
  exact dropWhile_zeros _

theorem scanFlag_split (flag : UInt8) (fmt : List UInt8) :
    fmt = (if (scanFlag flag fmt).1 then [flag] else []) ++ (scanFlag flag fmt).2 := by
  cases fmt with
  | nil => rfl
  | cons c rest =>
    by_cases hc : c = flag
    · simp [scanFlag, hc]
    · simp [scanFlag, hc]

theorem scanFlag_skips (flag : UInt8) (b : Bool) {rest : List UInt8}
    (h : rest.head? ≠ some flag) :
    (scanFlag flag ((if b then [flag] else []) ++ rest)).2 = rest := by
  cases b with
  | true => simp [scanFlag]
  | false => simp [scanFlag, h]

/-- The scan of flags and width goes on to the terminator exactly when there is nothing
else. -/
theorem scanSpec_nil_iff (p : List UInt8) : (scanSpec p).fmt = [] ↔ SpecOnly p := by
  rw [scanSpec_rest, List.dropWhile_eq_nil_iff]
  constructor
  · intro hdigits
    refine ⟨(scanFlag (ch '-') p).1, (scanFlag (ch '#') (scanFlag (ch '-') p).2).1, _, hdigits, ?_⟩
    rw [← scanFlag_split, ← scanFlag_split]
  · rintro ⟨minus, alternate, digits, hdigits, rfl⟩
    have hhead {flag : UInt8} (hflag : isDigit flag = false) : digits.head? ≠ some flag := by
      intro h
      have := hdigits flag (List.mem_of_head? h)
      rw [hflag] at this
      cases this
    have hrest : ((if alternate then [ch '#'] else []) ++ digits).head? ≠ some (ch '-') := by
      cases alternate with
      | true => exact (by decide : some (ch '#') ≠ some (ch '-'))
      | false => exact hhead (by decide)
    rwa [scanFlag_skips _ _ hrest, scanFlag_skips _ _ (hhead (by decide))]

/-! ## One round -/

def longLetter (letter : Option UInt8) : Bool :=
  letter = some (ch 'u') ∨ letter = some (ch 'x') ∨ letter = some (ch 'X')

def convLength : List UInt8 → Nat
  | [] => 0
  | [_] => 1
  | c :: c₁ :: rest =>
    if c = ch 'l' then
      if c₁ = ch 'l' then if longLetter rest.head? then 3 else 2
      else if longLetter (some c₁) then 2 else 1
    else 1

theorem longCall_isSome (v : UInt64) (letter : Option UInt8) :
    (longCall v letter).isSome ↔ longLetter letter := by
  simp only [longCall, longLetter, decide_eq_true_eq]
  split_ifs with hu hx hX
  · simp [hu]
  · simp [hx]
  · simp [hX]
  · simp [hu, hx, hX]

theorem directive_fmt (args : Args) {fmt : List UInt8} (hne : fmt ≠ []) (va : VaList) :
    ∃ c, (directive args fmt va).fmt = c :: fmt.drop (convLength fmt) := by
  obtain ⟨c, rest, rfl⟩ := List.exists_cons_of_ne_nil hne
  have hnone {v : UInt64} {letter : Option UInt8} (h : ¬longLetter letter) :
      longCall v letter = none := by
    rwa [← Option.not_isSome_iff_eq_none, longCall_isSome]
  by_cases hl : c = ch 'l'
  · subst hl
    cases rest with
    | nil => exact ⟨ch 'l', rfl⟩
    | cons c₁ rest =>
      by_cases hll : c₁ = ch 'l'
      · subst hll
        simp only [directive, letterCall_l, convLength, List.head?_cons, and_self, if_true,
          List.tail_cons]
        by_cases hletter : longLetter rest.head?
        · obtain ⟨call, hcall⟩ := Option.isSome_iff_exists.1
            ((longCall_isSome (args.slots va.align.ap) rest.head?).2 hletter)
          rw [hcall, if_pos hletter]
          cases rest with
          | nil => simp [longLetter] at hletter
          | cons c₂ rest => exact ⟨c₂, rfl⟩
        · rw [hnone hletter, if_neg hletter]
          exact ⟨ch 'l', rfl⟩
      · have hhead : (c₁ :: rest).head? ≠ some (ch 'l') := by simpa using hll
        simp only [directive, letterCall_l, convLength, hhead, and_false, if_false, if_true, hll]
        rw [List.head?_cons]
        by_cases hletter : longLetter (some c₁)
        · obtain ⟨call, hcall⟩ := Option.isSome_iff_exists.1
            ((longCall_isSome (args.slots va.ap) (some c₁)).2 hletter)
          rw [hcall, if_pos hletter]
          exact ⟨c₁, rfl⟩
        · rw [hnone hletter, if_neg hletter]
          exact ⟨ch 'l', rfl⟩
  · have hlength : convLength (c :: rest) = 1 := by
      cases rest with
      | nil => rfl
      | cons c₁ rest => simp only [convLength, hl, if_false]
    refine ⟨c, ?_⟩
    rw [hlength]
    simp only [directive, hl, false_and, if_false]
    cases letterCall args (args.slots va.ap) c with
    | none => rfl
    | some call => rfl

/-- The format ends in the flags or the width of a conversion. -/
inductive CutShort : List UInt8 → Prop
  | here {p : List UInt8} (ne_nil : p ≠ []) (spec : SpecOnly p) : CutShort (ch '%' :: p)
  | literal {c : UInt8} {rest : List UInt8} (not_percent : c ≠ ch '%') (tail : CutShort rest) :
      CutShort (c :: rest)
  | percent {rest : List UInt8} (tail : CutShort rest) : CutShort (ch '%' :: ch '%' :: rest)
  | conversion {p : List UInt8} (not_percent : p.head? ≠ some (ch '%'))
      (tail : CutShort ((scanSpec p).fmt.drop (convLength (scanSpec p).fmt))) :
      CutShort (ch '%' :: p)

theorem SpecOnly.head {p : List UInt8} (h : SpecOnly p) : p.head? ≠ some (ch '%') := by
  rw [← scanSpec_nil_iff, scanSpec_rest, List.dropWhile_eq_nil_iff] at h
  intro hhead
  have hflag (flag : UInt8) (hne : ch '%' ≠ flag) : (scanFlag flag p).2 = p := by
    rw [scanFlag, hhead, if_neg (by simpa using hne)]
  rw [hflag (ch '-') (by decide), hflag (ch '#') (by decide)] at h
  exact absurd (h _ (List.mem_of_head? hhead)) (by decide)

/-- What a round of the loop does with the format pointer, by what it stands on. -/
inductive RoundAt (fmt : List UInt8) : StepResult σ → Prop
  | finish {st : Print σ} (h : fmt = [] ∨ fmt = [ch '%']) : RoundAt fmt (.done st)
  | literal {c : UInt8} {rest : List UInt8} {st : Print σ} (h : fmt = c :: rest)
      (not_percent : c ≠ ch '%') : RoundAt fmt (.next rest st)
  | percent {rest : List UInt8} {st : Print σ} (h : fmt = ch '%' :: ch '%' :: rest) :
      RoundAt fmt (.next rest st)
  | conversion {p : List UInt8} {st : Print σ} (h : fmt = ch '%' :: p) (ne_nil : p ≠ [])
      (not_percent : p.head? ≠ some (ch '%')) (letter : (scanSpec p).fmt ≠ []) :
      RoundAt fmt (.next ((scanSpec p).fmt.drop (convLength (scanSpec p).fmt)) st)
  | overrun {p : List UInt8} (h : fmt = ch '%' :: p) (ne_nil : p ≠ [])
      (cut : (scanSpec p).fmt = []) : RoundAt fmt .overrun

theorem step_roundAt (d : Dest σ) (args : Args) (fmt : List UInt8) (st : Print σ) :
    RoundAt fmt (step d args fmt st) := by
  cases fmt with
  | nil => exact .finish (Or.inl rfl)
  | cons c rest =>
    simp only [step]
    split_ifs with hc hrest hpercent
    · subst hc hrest
      exact .finish (Or.inr rfl)
    · subst hc
      cases rest with
      | nil => exact absurd rfl hrest
      | cons c₁ rest =>
        obtain rfl : c₁ = ch '%' := Option.some.inj hpercent
        exact .percent rfl
    · subst hc
      by_cases hcut : (scanSpec rest).fmt = []
      · simp only [hcut, directive]
        exact .overrun rfl hrest hcut
      · obtain ⟨c₁, hdir⟩ := directive_fmt args hcut st.va.conversion
        simp only [hdir]
        exact .conversion rfl hrest hpercent hcut
    · exact .literal rfl hc

/-- The loop runs over the terminator exactly on the formats that are cut short. -/
theorem printLoop_none_iff (d : Dest σ) (args : Args) (fmt : List UInt8) (st : Print σ) :
    printLoop d args fmt st = none ↔ CutShort fmt := by
  induction hlen : fmt.length using Nat.strong_induction_on generalizing fmt st with
  | _ n ih =>
    have hround := step_roundAt d args fmt st
    have hshorter {fmt' : List UInt8} {st' : Print σ} (h : step d args fmt st = .next fmt' st') :
        printLoop d args fmt' st' = none ↔ CutShort fmt' := by
      obtain ⟨c, hsuffix⟩ := step_suffix h
      exact ih fmt'.length (hlen ▸ hsuffix.length_le) fmt' st' rfl
    generalize hstep : step d args fmt st = result at hround
    cases hround with
    | finish h =>
      rw [printLoop_done hstep]
      refine iff_of_false (by simp) fun hcut => ?_
      rcases h with rfl | rfl
      · cases hcut
      · cases hcut with
        | here hsome => exact hsome rfl
        | literal hne => exact hne rfl
        | conversion hne tail => cases tail
    | literal h hne =>
      rw [printLoop_next hstep, hshorter hstep]
      subst h
      refine ⟨.literal hne, fun hcut => ?_⟩
      cases hcut with
      | here | percent | conversion => exact absurd rfl hne
      | literal _ tail => exact tail
    | percent h =>
      rw [printLoop_next hstep, hshorter hstep]
      subst h
      refine ⟨.percent, fun hcut => ?_⟩
      cases hcut with
      | here _ spec => exact absurd rfl spec.head
      | literal hne => exact absurd rfl hne
      | percent tail => exact tail
      | conversion hne => exact absurd rfl hne
    | conversion h hsome hne hletter =>
      rw [printLoop_next hstep, hshorter hstep]
      subst h
      refine ⟨.conversion hne, fun hcut => ?_⟩
      cases hcut with
      | here _ spec => exact absurd ((scanSpec_nil_iff _).2 spec) hletter
      | literal hne' => exact absurd rfl hne'
      | percent => exact absurd rfl hne
      | conversion _ tail => exact tail
    | overrun h hsome hcut =>
      rw [printLoop_overrun hstep]
      subst h
      exact iff_of_true rfl (.here hsome ((scanSpec_nil_iff _).1 hcut))

/-! ## What is read -/

/-- The loop over a format with its terminator at byte `n` ends, having read no byte of the
format behind it. -/
def StaysInside (d : Dest σ) (args : Args) (format : Bytes) (n : Nat) (out : σ) : Prop :=
  ∃ fuel, (printAt d args format fuel out).value.isSome ∧
    (printAt d args format fuel out).Safe (· ≤ n)

/-- The scan ends at the terminator exactly when the format is not cut short, whatever the
bytes behind it, the arguments and the destination are. -/
theorem scan_stays_inside_iff (d : Dest σ) (args : Args) (format : CString) (behind : Bytes)
    (out : σ) :
    StaysInside d args (format.followedBy behind) format.chars.length out ↔
      ¬CutShort format.chars := by
  rw [← printLoop_none_iff d args format.chars ⟨out, 0, .start⟩]
  constructor
  · rintro ⟨fuel, hsome, hsafe⟩ hnone
    exact printLoopAt_unsafe (format.followedBy_at behind) hnone hsome hsafe
  · intro hne
    obtain ⟨st, hst⟩ := Option.ne_none_iff_exists'.1 hne
    have hrun := printAt_yields behind (format.chars.length + 1) hst
    exact ⟨_, hrun.isSome (Nat.lt_succ_self _), hrun.safe⟩

/-- "%5", where the width is followed by the terminator: the loop header steps over it and
reads the byte behind. -/
theorem width_cut_short :
    CutShort (chars "%5") ∧
      (printAt bufferDest oneArg (CString.followedBy ⟨chars "%5", by decide⟩ fun _ => 0) 4
        ⟨fun _ => 0, 0, none⟩).trace = [0, 1, 1, 1, 1, 1, 2, 2, 3] ∧
      ¬StaysInside bufferDest oneArg (CString.followedBy ⟨chars "%5", by decide⟩ fun _ => 0) 2
        ⟨fun _ => 0, 0, none⟩ := by
  have hdigit : ∀ c ∈ [ch '5'], isDigit c := List.forall_mem_singleton.2 (by decide)
  have hcut : CutShort (chars "%5") :=
    .here (List.cons_ne_nil _ _) ⟨false, false, [ch '5'], hdigit, rfl⟩
  refine ⟨hcut, by decide +kernel, ?_⟩
  rintro ⟨fuel, hsome, hsafe⟩
  have hnone := (printLoop_none_iff bufferDest oneArg (chars "%5")
    ⟨⟨fun _ => 0, 0, none⟩, 0, .start⟩).2 hcut
  have hat := CString.followedBy_at ⟨chars "%5", by decide⟩ fun _ => 0
  exact printLoopAt_unsafe hat hnone hsome hsafe

end ZStage.Console
