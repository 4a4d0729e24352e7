import XosKernel.VsnprintfWide

/-! The format. Every part of a conversion specification stops at the NUL, for the NUL is no flag, digit, qualifier or
conversion character, so the loop reads a format up to its NUL and no further. What the loop puts depends on the format
and the arguments alone: it is a list of `PUTC`s, whatever is done with them. -/

namespace XosKernel.Vsnprintf

/-- The bytes of a string from a pointer into it on, its NUL included. -/
inductive Terminated : List U8 → Prop where
  | nul : Terminated [0]
  | cons {c : U8} {fmt : List U8} (hc : c ≠ 0) (h : Terminated fmt) : Terminated (c :: fmt)

theorem CString.terminated (s : CString) : Terminated (s.bytes ++ [0]) := by
  obtain ⟨bytes, hbytes⟩ := s
  induction bytes with
  | nil => exact .nul
  | cons c bytes ih => exact .cons (hbytes c List.mem_cons_self) (ih fun b hb => hbytes b (List.mem_cons_of_mem _ hb))

/-- A later pointer into the format. -/
structure After (fmt rest : List U8) : Prop where
  terminated : Terminated rest
  length_le : rest.length ≤ fmt.length

variable {fmt rest rest' : List U8} {ap : VaList}

theorem Terminated.after (h : Terminated fmt) : After fmt fmt := ⟨h, le_rfl⟩

theorem After.trans (h : After fmt rest) (h' : After rest rest') : After fmt rest' :=
  ⟨h'.terminated, h'.length_le.trans h.length_le⟩

theorem After.cons (h : After fmt rest) (c : U8) : After (c :: fmt) rest :=
  ⟨h.terminated, h.length_le.trans (Nat.le_succ _)⟩

/-! ### Conversion specifications -/

theorem skipAtoi_after (h : Terminated fmt) (i : CInt) : ∃ i' rest, skipAtoi i fmt = .ok (i', rest) ∧ After fmt rest := by
  induction h generalizing i with
  | nul => exact ⟨i, [0], rfl, Terminated.nul.after⟩
  | @cons c fmt hc h ih =>
      unfold skipAtoi
      split
      · obtain ⟨i', rest, hok, hafter⟩ := ih (i * 10 + c.setWidth 32 - 48)
        exact ⟨i', rest, hok, hafter.cons c⟩
      · exact ⟨i, c :: fmt, rfl, (Terminated.cons hc h).after⟩

theorem getFlags_after (h : Terminated fmt) (flags : Flags) :
    ∃ flags' rest, getFlags flags fmt = .ok (flags', rest) ∧ After fmt rest := by
  induction h generalizing flags with
  | nul => exact ⟨flags, [0], rfl, Terminated.nul.after⟩
  | @cons c fmt hc h ih =>
      have hmore (flags' : Flags) : ∃ flags'' rest, getFlags flags' fmt = .ok (flags'', rest) ∧ After (c :: fmt) rest := by
        obtain ⟨flags'', rest, hok, hafter⟩ := ih flags'
        exact ⟨flags'', rest, hok, hafter.cons c⟩
      unfold getFlags
      split_ifs
      · exact hmore _
      · exact hmore _
      · exact hmore _
      · exact hmore _
      · exact hmore _
      · exact ⟨flags, c :: fmt, rfl, (Terminated.cons hc h).after⟩

theorem getInt_after (h : Terminated fmt) (ap : VaList) :
    ∃ i rest ap', getInt fmt ap = .ok (i, rest, ap') ∧ After fmt rest := by
  cases h with
  | nul => exact ⟨0, [0], ap, rfl, Terminated.nul.after⟩
  | @cons c fmt hc h =>
      unfold getInt
      dsimp only
      split_ifs
      · obtain ⟨i, rest, hok, hafter⟩ := skipAtoi_after (Terminated.cons hc h) 0
        rw [hok]
        exact ⟨i, rest, ap, rfl, hafter⟩
      · exact ⟨ap.int, fmt, ap.rest, rfl, h.after.cons c⟩
      · exact ⟨0, c :: fmt, ap, rfl, (Terminated.cons hc h).after⟩

theorem getFieldWidth_after (h : Terminated fmt) (flags : Flags) (ap : VaList) :
    ∃ width flags' rest ap', getFieldWidth flags fmt ap = .ok (width, flags', rest, ap') ∧ After fmt rest := by
  obtain ⟨i, rest, ap', hok, hafter⟩ := getInt_after h ap
  unfold getFieldWidth
  rw [hok]
  exact ⟨_, _, rest, ap', rfl, hafter⟩

/-- The precision is -1 when the format has none. -/
theorem getPrecision_after (h : Terminated fmt) (flags : Flags) (ap : VaList) :
    ∃ precision flags' rest ap', getPrecision flags fmt ap = .ok (precision, flags', rest, ap') ∧ After fmt rest := by
  cases h with
  | nul => exact ⟨-1, flags, [0], ap, rfl, Terminated.nul.after⟩
  | @cons c fmt hc h =>
      unfold getPrecision
      dsimp only
      split_ifs
      · obtain ⟨i, rest, ap', hok, hafter⟩ := getInt_after h ap
        rw [hok]
        exact ⟨i, _, rest, ap', rfl, hafter.cons c⟩
      · exact ⟨-1, flags, c :: fmt, ap, rfl, (Terminated.cons hc h).after⟩

theorem getQualifier_after (h : Terminated fmt) :
    ∃ qualifier rest, getQualifier fmt = .ok (qualifier, rest) ∧ After fmt rest := by
  cases h with
  | nul => exact ⟨.none, [0], rfl, Terminated.nul.after⟩
  | @cons c fmt hc h =>
      unfold getQualifier
      dsimp only
      split
      · cases h with
        | nul =>
            dsimp only
            rw [if_neg hc.symm]
            exact ⟨_, [0], rfl, Terminated.nul.after.cons c⟩
        | @cons d fmt hd h =>
            dsimp only
            split
            · exact ⟨_, fmt, rfl, (h.after.cons d).cons c⟩
            · exact ⟨_, d :: fmt, rfl, (Terminated.cons hd h).after.cons c⟩
      · exact ⟨.none, c :: fmt, rfl, (Terminated.cons hc h).after⟩

theorem getSpec_after (h : Terminated fmt) (ap : VaList) :
    ∃ spec rest ap', getSpec fmt ap = .ok (spec, rest, ap') ∧ After fmt rest := by
  obtain ⟨flags, rest, hflags, hafter⟩ := getFlags_after h Flags.none
  obtain ⟨width, flags₁, rest₁, ap₁, hwidth, hafter₁⟩ := getFieldWidth_after hafter.terminated flags ap
  obtain ⟨precision, flags₂, rest₂, ap₂, hprecision, hafter₂⟩ := getPrecision_after hafter₁.terminated flags₁ ap₁
  obtain ⟨qualifier, rest₃, hqualifier, hafter₃⟩ := getQualifier_after hafter₂.terminated
  refine ⟨⟨flags₂, width, precision, qualifier⟩, rest₃, ap₂, ?_, ((hafter.trans hafter₁).trans hafter₂).trans hafter₃⟩
  simp only [getSpec, hflags, hwidth, hprecision, hqualifier, pure, Except.pure, bind, Except.bind]

/-! ### Fields -/

/-- A field whose text can be put: `len` is the number of octets of some of the first characters of a wide text. -/
def Field.Whole (f : Field) : Prop := ∀ ws, f.text = .units ws → Chars ws f.len.toNat

theorem toNat_signExtend {i : CInt} (h : i.slt 0 = false) : (i.signExtend 64).toNat = i.toNat := by
  rw [show (0 : CInt) = 0#32 from rfl, BitVec.slt_zero_eq_msb] at h
  rw [BitVec.signExtend_eq_setWidth_of_msb_false h, BitVec.toNat_setWidth, Nat.mod_eq_of_lt (by omega)]

theorem wstring_whole (flags : Flags) (fieldWidth : CInt) {precision : CInt} (h : precision.slt 0 = false)
    (ws : List U16) : (wstring flags fieldWidth precision ws).Whole := by
  intro ws' htext
  simp only [wstring, Text.units.injEq] at htext
  subst htext
  have hmax : (precision.signExtend 64).toNat < 2 ^ 32 := by
    rw [toNat_signExtend h]
    omega
  have hstart : (0 : U64) ≤ precision.signExtend 64 := Nat.zero_le _
  obtain ⟨n, hchars, htotal, -⟩ := utf16sUtf8nlen_counts hmax hstart ws
  rw [show (0 : U64).toNat = 0 from rfl, Nat.zero_add] at htotal
  rwa [← htotal] at hchars

theorem convertChar_whole (spec : Spec) (arg : U64) : (convertChar spec arg).Whole := by
  unfold convertChar
  split
  · exact wstring_whole _ _ (by decide) _
  · rintro ws ⟨⟩

theorem convertString_whole (env : Strings) (spec : Spec) (arg : U64) : (convertString env spec arg).Whole := by
  have hprecision : (if spec.precision.slt 0 then intMax else spec.precision).slt 0 = false := by
    split
    · decide
    · simpa using ‹¬ spec.precision.slt 0 = true›
  unfold convertString
  dsimp only
  generalize (if spec.precision.slt 0 then intMax else spec.precision) = precision at hprecision ⊢
  split_ifs
  · rintro ws ⟨⟩
  · rintro ws ⟨⟩
  · exact wstring_whole _ _ hprecision _
  · rintro ws ⟨⟩

theorem convertNumber_whole (base : Base) (flags : Flags) (fieldWidth precision : CInt) (num : U64) :
    (convertNumber base flags fieldWidth precision num).Whole := by
  rintro ws ⟨⟩

theorem convert_whole {env : Strings} {spec : Spec} {c : U8} {arg : U64} {f : Field}
    (h : convert env spec c arg = some f) : f.Whole := by
  unfold convert at h
  dsimp only at h
  split_ifs at h <;> cases h
  · exact convertChar_whole spec arg
  · exact convertString_whole env spec arg
  all_goals exact convertNumber_whole _ _ _ _ _

theorem putText_ok {len : U64} {text : Text} (h : ∀ ws, text = .units ws → Chars ws len.toNat) :
    ∃ l, putText len text = .ok l := by
  cases text with
  | octets s => exact ⟨_, rfl⟩
  | units ws =>
      obtain ⟨puts, hputs⟩ := widePass_ends (h ws rfl)
      refine ⟨puts, ?_⟩
      rw [putText, hputs]

theorem output_ok {f : Field} (h : f.Whole) : ∃ l, output f = .ok l := by
  obtain ⟨text, htext⟩ := putText_ok h
  unfold output
  rw [htext]
  exact ⟨_, rfl⟩

/-- A conversion specification ends at the label `fail` or with its output, and its character is read before the
NUL. -/
theorem directive_after (env : Strings) (h : Terminated fmt) (ap : VaList) :
    directive env fmt ap = .ok .fail ∨
      ∃ l rest ap', directive env fmt ap = .ok (.puts l rest ap') ∧ Terminated rest ∧ rest.length < fmt.length := by
  obtain ⟨spec, rest, ap', hspec, hafter⟩ := getSpec_after h ap
  have hlen := hafter.length_le
  simp only [directive, hspec, bind, Except.bind]
  cases hafter.terminated with
  | nul => exact .inl rfl
  | @cons c rest hc hrest =>
      dsimp only
      cases hconvert : convert env spec c (ap' 0) with
      | none => exact .inl rfl
      | some f =>
          obtain ⟨l, hl⟩ := output_ok (convert_whole hconvert)
          refine .inr ⟨l, rest, ap'.rest, ?_, hrest, hlen⟩
          simp only [hl]
          rfl

/-! ### The loop -/

section

variable {σ : Type} (put : Put → σ → σ) (l l' : List Put) (out : σ)

@[simp] theorem putAll_nil : putAll put [] out = out := rfl

@[simp] theorem putAll_cons (p : Put) : putAll put (p :: l) out = putAll put l (put p out) := rfl

theorem putAll_append : putAll put (l ++ l') out = putAll put l' (putAll put l out) := List.foldl_append

end

/-- What a pass of the loop does, whatever is done with a `PUTC`: it ends the loop, or it puts `l` and goes on. -/
inductive PassPuts (env : Strings) (fmt : List U8) (ap : VaList) : Option (List Put × List U8 × VaList) → Prop where
  | ends (h : ∀ {σ : Type} (put : Put → σ → σ) (out : σ), formatPass env put ⟨fmt, ap, out⟩ = .done (.ok out)) :
      PassPuts env fmt ap none
  | goes {l : List Put} {rest : List U8} {ap' : VaList}
      (h : ∀ {σ : Type} (put : Put → σ → σ) (out : σ),
        formatPass env put ⟨fmt, ap, out⟩ = .next ⟨rest, ap', putAll put l out⟩)
      (hrest : Terminated rest) (hless : rest.length < fmt.length) : PassPuts env fmt ap (some (l, rest, ap'))

theorem formatPass_puts (env : Strings) (h : Terminated fmt) (ap : VaList) : ∃ r, PassPuts env fmt ap r := by
  cases h with
  | nul => exact ⟨none, .ends fun put out => rfl⟩
  | @cons c fmt hc h =>
      by_cases hpercent : c = chr '%'
      · subst hpercent
        obtain ⟨d, fmt', rfl⟩ : ∃ d fmt', fmt = d :: fmt' := by
          cases h with
          | nul => exact ⟨_, _, rfl⟩
          | cons => exact ⟨_, _, rfl⟩
        by_cases hd : d = chr '%'
        · subst hd
          refine ⟨some ([.octet (chr '%')], fmt', ap), .goes (fun put out => rfl) ?_ (by simp +arith)⟩
          cases h with
          | cons _ h => exact h
        · rcases directive_after env h ap with hfail | ⟨l, rest, ap', hputs, hrest, hless⟩
          · refine ⟨none, .ends fun put out => ?_⟩
            simp only [formatPass, if_neg hc, ne_eq, not_true_eq_false, if_false, if_neg hd, hfail]
          · refine ⟨some (l, rest, ap'), .goes (fun put out => ?_) hrest (Nat.lt_succ_of_lt hless)⟩
            simp only [formatPass, if_neg hc, ne_eq, not_true_eq_false, if_false, if_neg hd, hputs]
      · refine ⟨some ([.octet c], fmt, ap), .goes (fun put out => ?_) h (Nat.lt_succ_self _)⟩
        simp only [formatPass, if_neg hc, if_pos hpercent, putAll_cons, putAll_nil]

/-- The loop puts the same list whatever is done with a `PUTC`. -/
theorem run_puts (env : Strings) : ∀ (n : Nat) {fmt : List U8} (ap : VaList), Terminated fmt → fmt.length ≤ n →
    ∃ l, ∀ {σ : Type} (put : Put → σ → σ) (out : σ) (fuel : Nat), fmt.length < fuel →
      Loop.run (formatPass env put) fuel ⟨fmt, ap, out⟩ = some (.ok (putAll put l out))
  | n, fmt, ap, h, hn => by
      obtain ⟨r, hr⟩ := formatPass_puts env h ap
      cases hr with
      | ends hpass =>
          refine ⟨[], fun put out fuel hfuel => ?_⟩
          obtain ⟨fuel, rfl⟩ : ∃ k, fuel = k + 1 := ⟨fuel - 1, by omega⟩
          exact Loop.run_succ_done (hpass put out) fuel
      | @goes l rest ap' hpass hrest hless =>
          obtain ⟨n, rfl⟩ : ∃ k, n = k + 1 := ⟨n - 1, by omega⟩
          obtain ⟨l', hl'⟩ := run_puts env n ap' hrest (by omega)
          refine ⟨l ++ l', fun put out fuel hfuel => ?_⟩
          obtain ⟨fuel, rfl⟩ : ∃ k, fuel = k + 1 := ⟨fuel - 1, by omega⟩
          rw [Loop.run_succ_next (hpass put out), hl' put _ fuel (by omega), putAll_append]

/-- What the loop puts, in order. -/
def puts (env : Strings) (fmt : CString) (ap : VaList) : List Put :=
  match formatLoop env (fun p l => l ++ [p]) (fmt.bytes ++ [0]) ap [] with
  | .error _ => []
  | .ok l => l

theorem putAll_snoc (l l' : List Put) : putAll (fun p l => l ++ [p]) l l' = l' ++ l := by
  induction l generalizing l' with
  | nil => simp
  | cons p l ih => rw [putAll_cons, ih, List.append_assoc, List.singleton_append]

/-- **The format is read up to its NUL.** The loop ends, and it carries out `puts`. -/
theorem formatLoop_eq {σ : Type} (env : Strings) (put : Put → σ → σ) (fmt : CString) (ap : VaList) (out : σ) :
    formatLoop env put (fmt.bytes ++ [0]) ap out = .ok (putAll put (puts env fmt ap) out) := by
  obtain ⟨l, hl⟩ := run_puts env _ ap fmt.terminated le_rfl
  have hloop {σ : Type} (put : Put → σ → σ) (out : σ) :
      formatLoop env put (fmt.bytes ++ [0]) ap out = .ok (putAll put l out) := by
    rw [formatLoop, hl put out _ (Nat.lt_succ_self _)]
  have hputs : puts env fmt ap = l := by
    rw [puts, hloop, putAll_snoc, List.nil_append]
  rw [hloop, hputs]

/-- The loop goes on with the rest of the format. -/
theorem puts_of_pass {env : Strings} {fmt rest : CString} {ap ap' : VaList} {l : List Put}
    (hpass : ∀ {σ : Type} (put : Put → σ → σ) (out : σ), formatPass env put ⟨fmt.bytes ++ [0], ap, out⟩ =
      .next ⟨rest.bytes ++ [0], ap', putAll put l out⟩)
    (hless : rest.bytes.length < fmt.bytes.length) : puts env fmt ap = l ++ puts env rest ap' := by
  obtain ⟨l', hl'⟩ := run_puts env _ ap' rest.terminated le_rfl
  have hrest : puts env rest ap' = l' := by
    rw [puts, formatLoop, hl' _ _ _ (Nat.lt_succ_self _)]
    exact (putAll_snoc l' []).trans (List.nil_append l')
  have hfmt : formatLoop env (fun p l => l ++ [p]) (fmt.bytes ++ [0]) ap [] = .ok (l ++ l') := by
    rw [formatLoop, Loop.run_succ_next (hpass _ _), hl' _ _ _ (by simp; omega), putAll_snoc, putAll_snoc, List.nil_append]
  rw [hrest, puts, hfmt]

end XosKernel.Vsnprintf
