import Mathlib.Algebra.Order.Group.Nat
import Mathlib.Tactic.Common

/-! Counted loops, loops with an exit, and runs of a machine. A C loop whose number of
passes is known is `forUp`; a loop that leaves through a `break`, a `goto` or a `return` is `Loop.run`,
which is given a bound on its passes and answers `none` when the bound is too small. The rules below are
the only facts about loops that the program proofs use. A run of a machine is either the list of the
inputs of a deterministic one or a chain of steps of a transition relation. -/

namespace XosKernel

namespace Loop

variable {σ ρ : Type}

/-- A counted loop: `body 0`, then `body 1`, up to `body (n - 1)`. -/
def forUp (body : Nat → σ → σ) : Nat → σ → σ
  | 0, s => s
  | n + 1, s => body n (forUp body n s)

theorem forUp_zero (body : Nat → σ → σ) (s : σ) : forUp body 0 s = s := rfl

theorem forUp_succ (body : Nat → σ → σ) (n : Nat) (s : σ) :
    forUp body (n + 1) s = body n (forUp body n s) := rfl

-- a loop of two thousand passes is not to be unfolded by unification
attribute [irreducible] forUp

/-- The invariant rule of a counted loop. -/
theorem forUp_inv (P : Nat → σ → Prop) {body : Nat → σ → σ} {n : Nat} {s : σ} (hzero : P 0 s)
    (hstep : ∀ i t, i < n → P i t → P (i + 1) (body i t)) : P n (forUp body n s) := by
  suffices h : ∀ k, k ≤ n → P k (forUp body k s) from h n (Nat.le_refl n)
  intro k
  induction k with
  | zero =>
      intro _
      rw [forUp_zero]
      exact hzero
  | succ k ih =>
      intro hk
      rw [forUp_succ]
      exact hstep k _ hk (ih (Nat.le_of_succ_le hk))

/-- A counted loop with a test at the head of its body: `for (; i < lo + n; i++) { if (stop i) break; … }`.
It has no result when the body has none. -/
def forUntil (stop : Nat → Bool) (body : Nat → σ → Option σ) (i : Nat) : Nat → σ → Option σ
  | 0, s => some s
  | n + 1, s => if stop i then some s else (body i s).bind (forUntil stop body (i + 1) n)

theorem forUntil_succ_of_stop {stop : Nat → Bool} {body : Nat → σ → Option σ} {i : Nat} (h : stop i = true)
    (n : Nat) (s : σ) : forUntil stop body i (n + 1) s = some s := by
  rw [forUntil, if_pos h]

theorem forUntil_succ_of_body {stop : Nat → Bool} {body : Nat → σ → Option σ} {i : Nat} {s t : σ}
    (h : stop i = false) (hbody : body i s = some t) (n : Nat) :
    forUntil stop body i (n + 1) s = forUntil stop body (i + 1) n t := by
  rw [forUntil, if_neg (by simp [h]), hbody, Option.bind_some]

/-- The rule of a counted loop with a test: the passes before the first index that stops it all run. -/
theorem forUntil_spec (P : Nat → σ → Prop) (stop : Nat → Bool) (body : Nat → σ → Option σ) :
    ∀ {n lo : Nat} {s : σ}, P lo s →
      (∀ i t, lo ≤ i → i < lo + n → stop i = false → P i t → ∃ u, body i t = some u ∧ P (i + 1) u) →
      ∃ j t, forUntil stop body lo n s = some t ∧ P j t ∧ lo ≤ j ∧ j ≤ lo + n ∧
        (∀ i, lo ≤ i → i < j → stop i = false) ∧ (j < lo + n → stop j = true)
  | 0, lo, s, hs, _ => ⟨lo, s, rfl, hs, le_rfl, le_rfl, by omega, by omega⟩
  | n + 1, lo, s, hs, hbody => by
      cases hstop : stop lo with
      | true =>
          exact ⟨lo, s, forUntil_succ_of_stop hstop n s, hs, le_rfl, by omega, by omega, fun _ => hstop⟩
      | false =>
          obtain ⟨u, hu, hPu⟩ := hbody lo s le_rfl (by omega) hstop hs
          obtain ⟨j, t, hrun, hPt, hlo, hhi, hbefore, hat⟩ :=
            forUntil_spec (n := n) P stop body hPu fun i t hi hin => hbody i t (by omega) (by omega)
          refine ⟨j, t, (forUntil_succ_of_body hstop hu n).trans hrun, hPt, by omega, by omega, ?_, ?_⟩
          · intro i hi hij
            rcases Nat.eq_or_lt_of_le hi with rfl | hlt
            · exact hstop
            · exact hbefore i hlt hij
          · exact fun hj => hat (by omega)

/-- A computation that stops with `E` or ends with `Q`. -/
def Ends {ε α : Type} (E : ε → Prop) (Q : α → Prop) : Except ε α → Prop
  | .ok a => Q a
  | .error e => E e

/-- The rule of sequencing. -/
theorem Ends.bind {ε α β : Type} {E : ε → Prop} {Q : α → Prop} {R : β → Prop} {x : Except ε α} {f : α → Except ε β}
    (h : Ends E Q x) (hf : ∀ a, Q a → Ends E R (f a)) : Ends E R (x >>= f) := by
  cases x with
  | ok a => exact hf a h
  | error e => exact h

/-- The rule of consequence. -/
theorem Ends.imp {ε α : Type} {E E' : ε → Prop} {Q Q' : α → Prop} {x : Except ε α} (h : Ends E Q x)
    (hE : ∀ e, E e → E' e) (hQ : ∀ a, Q a → Q' a) : Ends E' Q' x := by
  cases x with
  | ok a => exact hQ a h
  | error e => exact hE e h

/-- A counted loop whose body may stop. -/
def forUpE {ε : Type} (body : Nat → σ → Except ε σ) : Nat → σ → Except ε σ
  | 0, s => .ok s
  | n + 1, s => forUpE body n s >>= body n

/-- The invariant rule of such a loop. -/
theorem forUpE_inv {ε : Type} {E : ε → Prop} (P : Nat → σ → Prop) {body : Nat → σ → Except ε σ} {n : Nat} {s : σ}
    (hzero : P 0 s) (hstep : ∀ i t, i < n → P i t → Ends E (P (i + 1)) (body i t)) : Ends E (P n) (forUpE body n s) := by
  suffices h : ∀ k, k ≤ n → Ends E (P k) (forUpE body k s) from h n (Nat.le_refl n)
  intro k
  induction k with
  | zero =>
      intro _
      exact hzero
  | succ k ih =>
      intro hk
      exact (ih (Nat.le_of_succ_le hk)).bind fun t ht => hstep k t hk ht

/-- What one pass of a loop with an exit does: go on, or leave with a result. -/
inductive Pass (σ ρ : Type) where
  | next (s : σ)
  | done (r : ρ)

/-- A loop with an exit, for at most `fuel` passes. -/
def run (body : σ → Pass σ ρ) : Nat → σ → Option ρ
  | 0, _ => none
  | fuel + 1, s =>
      match body s with
      | .next s' => run body fuel s'
      | .done r => some r

theorem run_succ_next {body : σ → Pass σ ρ} {s s' : σ} (h : body s = .next s') (fuel : Nat) :
    run body (fuel + 1) s = run body fuel s' := by
  rw [run, h]

theorem run_succ_done {body : σ → Pass σ ρ} {s : σ} {r : ρ} (h : body s = .done r) (fuel : Nat) :
    run body (fuel + 1) s = some r := by
  rw [run, h]

/-- The result of a loop does not depend on the bound. -/
theorem run_unique {body : σ → Pass σ ρ} : ∀ {fuel fuel' : Nat} {s : σ} {r r' : ρ}, run body fuel s = some r →
    run body fuel' s = some r' → r = r'
  | 0, _, _, _, _, h, _ => by cases h
  | _ + 1, 0, _, _, _, _, h' => by cases h'
  | fuel + 1, fuel' + 1, s, r, r', h, h' => by
      cases hbody : body s with
      | next t =>
          rw [run_succ_next hbody] at h h'
          exact run_unique h h'
      | done q =>
          rw [run_succ_done hbody, Option.some.injEq] at h h'
          exact h.symm.trans h'

/-- A pass that comes back to where it started is made for ever. -/
theorem run_repeats {body : σ → Pass σ ρ} {s : σ} (h : body s = .next s) (fuel : Nat) : run body fuel s = none := by
  induction fuel with
  | zero => rfl
  | succ fuel ih => rw [run_succ_next h, ih]

/-- Partial correctness: an invariant of the passes that go on decides the result. -/
theorem run_sound {body : σ → Pass σ ρ} (Inv : σ → Prop) {Post : ρ → Prop}
    (hnext : ∀ s s', Inv s → body s = .next s' → Inv s')
    (hdone : ∀ s r, Inv s → body s = .done r → Post r) :
    ∀ (fuel : Nat) {s : σ} {r : ρ}, Inv s → run body fuel s = some r → Post r
  | 0, _, _, _, h => by cases h
  | fuel + 1, s, r, hs, h => by
      cases hbody : body s with
      | next s' =>
          rw [run_succ_next hbody] at h
          exact run_sound Inv hnext hdone fuel (hnext s s' hs hbody) h
      | done r' =>
          rw [run_succ_done hbody, Option.some.injEq] at h
          subst h
          exact hdone s r' hs hbody

/-- Total correctness: a measure that every pass decreases bounds the passes. -/
theorem run_terminates {body : σ → Pass σ ρ} (Inv : σ → Prop) (μ : σ → Nat)
    (hnext : ∀ s s', Inv s → body s = .next s' → Inv s' ∧ μ s' < μ s) :
    ∀ (fuel : Nat) {s : σ}, Inv s → μ s < fuel → ∃ r, run body fuel s = some r
  | 0, _, _, hfuel => absurd hfuel (Nat.not_lt_zero _)
  | fuel + 1, s, hs, hfuel => by
      cases hbody : body s with
      | next s' =>
          obtain ⟨hs', hless⟩ := hnext s s' hs hbody
          rw [run_succ_next hbody]
          exact run_terminates Inv μ hnext fuel hs' (by omega)
      | done r => exact ⟨r, run_succ_done hbody fuel⟩

/-- Two passes go on in related states or leave with related results. -/
def Pass.Rel {σ' ρ' : Type} (R : σ → σ' → Prop) (Q : ρ → ρ' → Prop) : Pass σ ρ → Pass σ' ρ' → Prop
  | .next s, .next t => R s t
  | .done r, .done q => Q r q
  | _, _ => False

/-- The simulation rule of loops. -/
theorem run_rel {σ' ρ' : Type} {body : σ → Pass σ ρ} {body' : σ' → Pass σ' ρ'} {R : σ → σ' → Prop}
    {Q : ρ → ρ' → Prop} (hpass : ∀ s t, R s t → (body s).Rel R Q (body' t)) :
    ∀ (fuel : Nat) {s : σ} {t : σ'} {r : ρ}, R s t → run body fuel s = some r →
      ∃ q, run body' fuel t = some q ∧ Q r q
  | 0, _, _, _, _, h => by cases h
  | fuel + 1, s, t, r, hst, h => by
      have hrel := hpass s t hst
      cases hs : body s with
      | next s' =>
          cases ht : body' t with
          | next t' =>
              rw [hs, ht] at hrel
              rw [run_succ_next hs] at h
              rw [run_succ_next ht]
              exact run_rel hpass fuel hrel h
          | done q =>
              rw [hs, ht] at hrel
              cases hrel
      | done r' =>
          cases ht : body' t with
          | next t' =>
              rw [hs, ht] at hrel
              cases hrel
          | done q =>
              rw [hs, ht] at hrel
              rw [run_succ_done hs, Option.some.injEq] at h
              subst h
              exact ⟨q, run_succ_done ht fuel, hrel⟩

end Loop

namespace Run

variable {σ ε α : Type}

/-- Every step of the run of a deterministic machine satisfies `P`, a property of the state before the
step and the input of the step. -/
def Every (step : σ → ε → σ) (P : σ → ε → Prop) : σ → List ε → Prop
  | _, [] => True
  | s, e :: es => P s e ∧ Every step P (step s e) es

@[simp] theorem every_nil {step : σ → ε → σ} {P : σ → ε → Prop} {s : σ} : Every step P s [] := trivial

@[simp] theorem every_cons {step : σ → ε → σ} {P : σ → ε → Prop} {s : σ} {e : ε} {es : List ε} :
    Every step P s (e :: es) ↔ P s e ∧ Every step P (step s e) es := Iff.rfl

instance instDecidableEvery {step : σ → ε → σ} {P : σ → ε → Prop} [∀ s e, Decidable (P s e)] (s : σ) (es : List ε) :
    Decidable (Every step P s es) :=
  match es with
  | [] => .isTrue trivial
  | e :: es => @instDecidableAnd (P s e) (Every step P (step s e) es) _ (instDecidableEvery (step s e) es)

/-- Two properties that agree on the states of an invariant hold of the same runs. The invariant need
only be kept by the steps that satisfy the second property. -/
theorem every_iff_of_inv {step : σ → ε → σ} {P Q : σ → ε → Prop} (Inv : σ → Prop)
    (hiff : ∀ s e, Inv s → (P s e ↔ Q s e)) (hkeep : ∀ s e, Inv s → Q s e → Inv (step s e)) :
    ∀ {s : σ} (es : List ε), Inv s → (Every step P s es ↔ Every step Q s es)
  | _, [], _ => Iff.rfl
  | s, e :: es, hs => by
      rw [every_cons, every_cons, hiff s e hs]
      refine and_congr_right fun hq => ?_
      exact every_iff_of_inv Inv hiff hkeep es (hkeep s e hs hq)

/-- The runs of a transition system, with their steps listed last first. -/
inductive Reaches (step : σ → ε → σ → Prop) (s : σ) : List ε → σ → Prop
  | start : Reaches step s [] s
  | next {es : List ε} {t u : σ} {e : ε} (hrun : Reaches step s es t) (hstep : step t e u) :
      Reaches step s (e :: es) u

/-- The invariant rule of runs: what every step keeps, whatever the steps before it were, holds at the
end. -/
theorem Reaches.invariant {step : σ → ε → σ → Prop} {s t : σ} {es : List ε} (Inv : List ε → σ → Prop)
    (hstart : Inv [] s) (hnext : ∀ es t e u, Inv es t → step t e u → Inv (e :: es) u)
    (hrun : Reaches step s es t) : Inv es t := by
  induction hrun with
  | start => exact hstart
  | next _ hstep ih => exact hnext _ _ _ _ ih hstep

/-- Every event of a list whose last event is listed first stands with the events before it in `P`. -/
def EachPast (P : ε → List ε → Prop) : List ε → Prop
  | [] => True
  | e :: past => P e past ∧ EachPast P past

theorem EachPast.of_append {P : ε → List ε → Prop} {e : ε} {early : List ε} :
    ∀ {late : List ε}, EachPast P (late ++ e :: early) → P e early
  | [], h => h.1
  | _ :: _, h => EachPast.of_append h.2

/-- The simulation rule: a relation that every pair of matching steps keeps holds at the end of
matching runs. -/
theorem foldl_rel {step : σ → ε → σ} {astep : α → ε → α} (R : σ → α → Prop) (C : ε → Prop)
    (hstep : ∀ s a e, C e → R s a → R (step s e) (astep a e)) :
    ∀ (es : List ε) {s : σ} {a : α}, (∀ e ∈ es, C e) → R s a → R (es.foldl step s) (es.foldl astep a)
  | [], _, _, _, h => h
  | e :: es, _, _, hC, h =>
      foldl_rel R C hstep es (fun _ he => hC _ (List.mem_cons_of_mem _ he))
        (hstep _ _ e (hC e List.mem_cons_self) h)

end Run

end XosKernel
