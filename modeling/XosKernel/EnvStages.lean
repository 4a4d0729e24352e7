import XosKernel.EnvCalls

/-! Programs that call an environment, looked at when the environment stops answering. A program has then returned,
waits for the reply to a call, or loops for ever. `Ensures` is the weakest precondition of a property of the
calls so far and of this stage, taken at every point of every run. A program over a few calls is also a program
over more calls. -/

namespace XosKernel.Calls

variable {κ κ' ρ α β : Type}

/-- Where a program is when the environment stops answering. -/
inductive Stage (κ α : Type) where
  | returned (a : α)
  | waiting (c : κ)
  | hung

namespace Prog

def stage : Prog κ ρ α → List ρ → Stage κ α
  | ret a, _ => .returned a
  | call _ next, r :: rs => (next r).stage rs
  | call c _, [] => .waiting c
  | hang, _ => .hung

@[simp] theorem run_pure {a : α} (replies : List ρ) (past : List (κ × ρ)) :
    (pure a : Prog κ ρ α).run replies past = (past, some a) := by
  cases replies with
  | nil => rfl
  | cons r rs => rfl

@[simp] theorem run_ask_cons {c : κ} {f : ρ → Prog κ ρ α} {r : ρ} {rs : List ρ} {past : List (κ × ρ)} :
    (ask c >>= f).run (r :: rs) past = (f r).run rs ((c, r) :: past) := rfl

@[simp] theorem run_ask_nil {c : κ} {f : ρ → Prog κ ρ α} {past : List (κ × ρ)} :
    (ask c >>= f).run [] past = (past, none) := rfl

/-- The calls of a run stand before those of the past. -/
theorem run_past (p : Prog κ ρ α) (replies : List ρ) (past : List (κ × ρ)) :
    p.run replies past = ((p.run replies []).1 ++ past, (p.run replies []).2) := by
  induction p generalizing replies past with
  | ret a =>
      cases replies with
      | nil => rfl
      | cons r rs => rfl
  | call c next ih =>
      cases replies with
      | nil => rfl
      | cons r rs =>
          show (next r).run rs ((c, r) :: past) = (((next r).run rs [(c, r)]).1 ++ past, ((next r).run rs [(c, r)]).2)
          rw [ih r rs ((c, r) :: past), ih r rs [(c, r)], List.append_assoc, List.singleton_append]
  | hang =>
      cases replies with
      | nil => rfl
      | cons r rs => rfl

/-- A run only adds calls. -/
theorem mem_run {e : κ × ρ} (p : Prog κ ρ α) (replies : List ρ) {past : List (κ × ρ)} (h : e ∈ past) :
    e ∈ (p.run replies past).1 := by
  rw [run_past]
  exact List.mem_append_right _ h

/-- The replies that a program has not asked for when it returns. -/
def left : Prog κ ρ α → List ρ → List ρ
  | ret _, rs => rs
  | call _ next, r :: rs => (next r).left rs
  | call _ _, [] => []
  | hang, rs => rs

@[simp] theorem left_pure {a : α} (replies : List ρ) : (pure a : Prog κ ρ α).left replies = replies := by
  cases replies with
  | nil => rfl
  | cons r rs => rfl

@[simp] theorem left_ask_cons {c : κ} {f : ρ → Prog κ ρ α} {r : ρ} {rs : List ρ} :
    (ask c >>= f).left (r :: rs) = (f r).left rs := rfl

/-- A program that returns hands the rest of the replies on. -/
theorem run_bind_some {p : Prog κ ρ α} {f : α → Prog κ ρ β} {replies : List ρ} {past : List (κ × ρ)} {a : α}
    (h : (p.run replies past).2 = some a) :
    (p >>= f).run replies past = (f a).run (p.left replies) (p.run replies past).1 := by
  show (Prog.bind p f).run replies past = _
  induction p generalizing replies past with
  | ret b =>
      obtain rfl : b = a := by cases replies <;> exact Option.some.inj h
      cases replies with
      | nil => rfl
      | cons r rs => rfl
  | call c next ih =>
      cases replies with
      | nil => simp [run] at h
      | cons r rs => exact ih r h
  | hang => cases replies <;> simp [run] at h

theorem run_bind_none {p : Prog κ ρ α} {f : α → Prog κ ρ β} {replies : List ρ} {past : List (κ × ρ)}
    (h : (p.run replies past).2 = none) : (p >>= f).run replies past = ((p.run replies past).1, none) := by
  show (Prog.bind p f).run replies past = _
  induction p generalizing replies past with
  | ret b => cases replies <;> simp [run] at h
  | call c next ih =>
      cases replies with
      | nil => rfl
      | cons r rs => exact ih r h
  | hang => cases replies <;> rfl

/-- `Q` holds of the calls so far and the stage wherever the environment stops. -/
def Ensures (Q : List (κ × ρ) → Stage κ α → Prop) : Prog κ ρ α → List (κ × ρ) → Prop
  | ret a, past => Q past (.returned a)
  | call c next, past => Q past (.waiting c) ∧ ∀ r, (next r).Ensures Q ((c, r) :: past)
  | hang, past => Q past .hung

section

variable {Q Q' : List (κ × ρ) → Stage κ α → Prop} {past : List (κ × ρ)}

@[simp] theorem ensures_ret {a : α} : (ret a : Prog κ ρ α).Ensures Q past ↔ Q past (.returned a) := Iff.rfl

@[simp] theorem ensures_pure {a : α} : (pure a : Prog κ ρ α).Ensures Q past ↔ Q past (.returned a) := Iff.rfl

@[simp] theorem ensures_hang : (hang : Prog κ ρ α).Ensures Q past ↔ Q past .hung := Iff.rfl

theorem ensures_ask {c : κ} {f : ρ → Prog κ ρ α} :
    (ask c >>= f).Ensures Q past ↔ Q past (.waiting c) ∧ ∀ r, (f r).Ensures Q ((c, r) :: past) := Iff.rfl

theorem ensures_ite {c : Prop} [Decidable c] {p q : Prog κ ρ α} (hp : c → p.Ensures Q past)
    (hq : ¬ c → q.Ensures Q past) : (if c then p else q).Ensures Q past := by
  split_ifs with hc
  · exact hp hc
  · exact hq hc

/-- The rule of consequence. -/
theorem Ensures.mono {p : Prog κ ρ α} (h : p.Ensures Q past) (himp : ∀ past st, Q past st → Q' past st) :
    p.Ensures Q' past := by
  induction p generalizing past with
  | ret a => exact himp _ _ h
  | call c next ih => exact ⟨himp _ _ h.1, fun r => ih r (h.2 r)⟩
  | hang => exact himp _ _ h

/-- The rule of sequencing: what waits or hangs in the first program is left to the whole. -/
theorem Ensures.bind {p : Prog κ ρ α} {f : α → Prog κ ρ β} {R : List (κ × ρ) → Stage κ β → Prop}
    (h : p.Ensures Q past) (hret : ∀ past a, Q past (.returned a) → (f a).Ensures R past)
    (hwait : ∀ past c, Q past (.waiting c) → R past (.waiting c)) (hhung : ∀ past, Q past .hung → R past .hung) :
    (p >>= f).Ensures R past := by
  show (Prog.bind p f).Ensures R past
  induction p generalizing past with
  | ret a => exact hret _ _ h
  | call c next ih => exact ⟨hwait _ _ h.1, fun r => ih r (h.2 r)⟩
  | hang => exact hhung _ h

/-- What a program ensures holds at the end of each of its runs. -/
theorem Ensures.run {p : Prog κ ρ α} (h : p.Ensures Q past) (replies : List ρ) :
    Q (p.run replies past).1 (p.stage replies) := by
  induction p generalizing past replies with
  | ret a =>
      cases replies with
      | nil => exact h
      | cons r rs => exact h
  | call c next ih =>
      cases replies with
      | nil => exact h.1
      | cons r rs => exact ih r (h.2 r) rs
  | hang =>
      cases replies with
      | nil => exact h
      | cons r rs => exact h

end

/-- The program with its calls renamed. -/
def mapCalls (f : κ → κ') : Prog κ ρ α → Prog κ' ρ α
  | ret a => ret a
  | call c next => call (f c) fun r => (next r).mapCalls f
  | hang => hang

/-- Whatever holds of all renamed calls holds of all calls that the program makes. -/
theorem ensures_mapCalls {f : κ → κ'} {P : κ' × ρ → Prop} (hf : ∀ c r, P (f c, r)) (p : Prog κ ρ α)
    {past : List (κ' × ρ)} (hpast : ∀ e ∈ past, P e) :
    (p.mapCalls f).Ensures (fun past _ => ∀ e ∈ past, P e) past := by
  induction p generalizing past with
  | ret a => exact hpast
  | call c next ih => exact ⟨hpast, fun r => ih r (List.forall_mem_cons.mpr ⟨hf c r, hpast⟩)⟩
  | hang => exact hpast

end Prog

end XosKernel.Calls
