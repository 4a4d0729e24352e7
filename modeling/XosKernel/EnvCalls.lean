import XosKernel.LoopRules

/-! Programs that call an environment. A program returns a value, makes a call and goes on with the
reply, or never returns. The environment is a list of replies, one for each call; where it ends, the
environment does not answer any more. A law about the calls is a transition relation on phases that
every call with its reply must follow: `Obeys` says so for one program, call by call, and `obeys_reaches`
says it of the whole trace. -/

namespace XosKernel.Calls

variable {κ ρ α β σ : Type}

inductive Prog (κ ρ α : Type) where
  | ret (a : α)
  | call (c : κ) (next : ρ → Prog κ ρ α)
  | hang

namespace Prog

def bind : Prog κ ρ α → (α → Prog κ ρ β) → Prog κ ρ β
  | ret a, f => f a
  | call c next, f => call c fun r => (next r).bind f
  | hang, _ => hang

instance : Monad (Prog κ ρ) where
  pure := ret
  bind := bind

/-- A single call, with the reply as its value. -/
def ask (c : κ) : Prog κ ρ ρ := call c ret

/-- The calls with their replies, the last one first, and the value if the program returns. -/
def run : Prog κ ρ α → List ρ → List (κ × ρ) → List (κ × ρ) × Option α
  | ret a, _, past => (past, some a)
  | call c next, r :: rs, past => (next r).run rs ((c, r) :: past)
  | call _ _, [], past => (past, none)
  | hang, _, past => (past, none)

/-- The trace of a program on a list of replies. -/
def trace (p : Prog κ ρ α) (replies : List ρ) : List (κ × ρ) := (p.run replies []).1

/-- Every call of the program, with any reply that `Ok` admits, is a step from the phase in which it is
made, and the program returns in a phase that `Post` admits. -/
def Obeys (Ok : ρ → Prop) (step : σ → κ × ρ → σ → Prop) : Prog κ ρ α → σ → (α → σ → Prop) → Prop
  | ret a, s, Post => Post a s
  | call c next, s, Post => ∀ r, Ok r → ∃ t, step s (c, r) t ∧ (next r).Obeys Ok step t Post
  | hang, _, _ => True

section

variable {Ok : ρ → Prop} {step : σ → κ × ρ → σ → Prop}

@[simp] theorem obeys_ret {a : α} {s : σ} {Post : α → σ → Prop} :
    (ret a : Prog κ ρ α).Obeys Ok step s Post ↔ Post a s := Iff.rfl

@[simp] theorem obeys_pure {a : α} {s : σ} {Post : α → σ → Prop} :
    (pure a : Prog κ ρ α).Obeys Ok step s Post ↔ Post a s := Iff.rfl

@[simp] theorem obeys_hang {s : σ} {Post : α → σ → Prop} :
    (hang : Prog κ ρ α).Obeys Ok step s Post := trivial

/-- The rule of consequence. -/
theorem Obeys.mono {p : Prog κ ρ α} {s : σ} {Post Post' : α → σ → Prop} (h : p.Obeys Ok step s Post)
    (himp : ∀ a t, Post a t → Post' a t) : p.Obeys Ok step s Post' := by
  induction p generalizing s with
  | ret a => exact himp a s h
  | call c next ih =>
      intro r hr
      obtain ⟨t, hstep, hnext⟩ := h r hr
      exact ⟨t, hstep, ih r hnext⟩
  | hang => trivial

/-- The rule of sequencing. -/
theorem Obeys.bind {p : Prog κ ρ α} {f : α → Prog κ ρ β} {s : σ} {Mid : α → σ → Prop}
    {Post : β → σ → Prop} (h : p.Obeys Ok step s Mid)
    (hf : ∀ a t, Mid a t → (f a).Obeys Ok step t Post) : (p >>= f).Obeys Ok step s Post := by
  show (Prog.bind p f).Obeys Ok step s Post
  induction p generalizing s with
  | ret a => exact hf a s h
  | call c next ih =>
      intro r hr
      obtain ⟨t, hstep, hnext⟩ := h r hr
      exact ⟨t, hstep, ih r hnext⟩
  | hang => trivial

/-- The rule of a branch. -/
theorem obeys_ite {c : Prop} [Decidable c] {p q : Prog κ ρ α} {s : σ} {Post : α → σ → Prop}
    (hp : c → p.Obeys Ok step s Post) (hq : ¬ c → q.Obeys Ok step s Post) :
    (if c then p else q).Obeys Ok step s Post := by
  split_ifs with hc
  · exact hp hc
  · exact hq hc

/-- The rule of a call. -/
theorem obeys_ask {c : κ} {f : ρ → Prog κ ρ β} {s : σ} {Post : β → σ → Prop}
    (h : ∀ r, Ok r → ∃ t, step s (c, r) t ∧ (f r).Obeys Ok step t Post) :
    (ask c >>= f).Obeys Ok step s Post := h

/-- A run of a program that obeys a law is a run of the law. -/
theorem obeys_reaches {p : Prog κ ρ α} {Post : α → σ → Prop} {s₀ : σ} :
    ∀ {replies : List ρ} {past : List (κ × ρ)} {s : σ}, p.Obeys Ok step s Post → (∀ r ∈ replies, Ok r) →
      Run.Reaches step s₀ past s → ∃ t, Run.Reaches step s₀ (p.run replies past).1 t := by
  induction p with
  | ret a =>
      intro replies past s _ _ hpast
      exact ⟨s, hpast⟩
  | call c next ih =>
      intro replies past s h hok hpast
      cases replies with
      | nil => exact ⟨s, hpast⟩
      | cons r rs =>
          obtain ⟨t, hstep, hnext⟩ := h r (hok r List.mem_cons_self)
          exact ih r hnext (fun r' hr' => hok r' (List.mem_cons_of_mem _ hr')) (hpast.next hstep)
  | hang =>
      intro replies past s _ _ hpast
      exact ⟨s, hpast⟩

end

end Prog

end XosKernel.Calls
