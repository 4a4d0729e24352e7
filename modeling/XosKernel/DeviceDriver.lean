import XosKernel.LoopRules

/-! Programs that drive a device. A program writes to the device and reads from it, and it may poll, that is
read again and again. It is given the replies to its reads; where they end it waits for the next one, so what
holds for all lists of replies holds at every moment. The device is a transition relation on the writes and the
reads with their replies. A triple is about a program and a device, and `Returns` is about a program and the
number of replies that it waits for. -/

namespace XosKernel.Device

variable {ε ρ α β σ τ : Type}

/-- How a program stands when the replies end: it has returned with some of them left, waits for one more, or has
gone wrong. -/
inductive Outcome (ρ α : Type) where
  | returned (a : α) (left : List ρ)
  | waiting
  | stuck
  deriving DecidableEq

/-- The writes and reads of a program, the first one first, and how it stands. -/
structure Result (ε ρ α : Type) where
  events : List ε
  outcome : Outcome ρ α
  deriving DecidableEq

def Driver (ε ρ α : Type) : Type := List ρ → Result ε ρ α

/-- What comes behind the first part of a program. -/
def Outcome.andThen (events : List ε) (f : α → Driver ε ρ β) : Outcome ρ α → Result ε ρ β
  | returned a left => ⟨events ++ (f a left).events, (f a left).outcome⟩
  | waiting => ⟨events, .waiting⟩
  | stuck => ⟨events, .stuck⟩

namespace Driver

instance : Monad (Driver ε ρ) where
  pure a := fun rs => ⟨[], .returned a rs⟩
  bind p f := fun rs => Outcome.andThen (p rs).events f (p rs).outcome

def write (e : ε) : Driver ε ρ Unit := fun rs => ⟨[e], .returned () rs⟩

/-- A read, with the reply as its value. -/
def read (e : ρ → ε) : Driver ε ρ ρ
  | [] => ⟨[], .waiting⟩
  | r :: rs => ⟨[e r], .returned r rs⟩

def fail : Driver ε ρ α := fun _ => ⟨[], .stuck⟩

/-- At most `n` passes of a loop. -/
def loopN (body : τ → Driver ε ρ (τ ⊕ α)) : Nat → τ → Driver ε ρ α
  | 0, _ => fun _ => ⟨[], .waiting⟩
  | n + 1, s => body s >>= Sum.elim (loopN body n) pure

/-- A loop whose body takes a reply whenever it goes on, so that it makes no more passes than there are replies. -/
def loop (body : τ → Driver ε ρ (τ ⊕ α)) (s : τ) : Driver ε ρ α := fun rs => loopN body (rs.length + 1) s rs

def pollPass (e : ρ → ε) (ready : ρ → Bool) (_ : Unit) : Driver ε ρ (Unit ⊕ ρ) := do
  let r ← read e
  return if ready r then .inr r else .inl ()

/-- The same read again and again until the reply is as `ready` says. -/
def poll (e : ρ → ε) (ready : ρ → Bool) : Driver ε ρ ρ := loop (pollPass e ready) ()

@[simp] theorem pure_apply (a : α) (rs : List ρ) : (pure a : Driver ε ρ α) rs = ⟨[], .returned a rs⟩ := rfl

theorem bind_apply (p : Driver ε ρ α) (f : α → Driver ε ρ β) (rs : List ρ) :
    (p >>= f) rs = Outcome.andThen (p rs).events f (p rs).outcome := rfl

theorem bind_returned {p : Driver ε ρ α} {f : α → Driver ε ρ β} {rs left : List ρ} {a : α}
    (h : (p rs).outcome = .returned a left) :
    (p >>= f) rs = ⟨(p rs).events ++ (f a left).events, (f a left).outcome⟩ := by
  rw [bind_apply, h]
  rfl

/-! ### Loops -/

/-- The body takes a reply when it goes on. -/
def Takes (body : τ → Driver ε ρ (τ ⊕ α)) : Prop :=
  ∀ s rs t left, (body s rs).outcome = .returned (.inl t) left → left.length < rs.length

theorem bind_congr {p : Driver ε ρ α} {f g : α → Driver ε ρ β} {rs : List ρ}
    (h : ∀ a left, (p rs).outcome = .returned a left → f a left = g a left) : (p >>= f) rs = (p >>= g) rs := by
  rw [bind_apply, bind_apply]
  cases hout : (p rs).outcome with
  | returned a left => rw [Outcome.andThen, Outcome.andThen, h a left hout]
  | waiting => rfl
  | stuck => rfl

/-- More passes than there are replies make no difference. -/
theorem loopN_of_lt {body : τ → Driver ε ρ (τ ⊕ α)} (h : Takes body) :
    ∀ {n : Nat} {s : τ} {rs : List ρ}, rs.length < n → loopN body n s rs = loop body s rs := by
  suffices hsame : ∀ {m n : Nat} {s : τ} {rs : List ρ}, rs.length < m → rs.length < n →
      loopN body m s rs = loopN body n s rs from @fun n s rs hn => hsame hn (Nat.lt_succ_self _)
  intro m
  induction m with
  | zero =>
      intro n s rs hm
      exact absurd hm (Nat.not_lt_zero _)
  | succ m ih =>
      intro n s rs hm hn
      obtain ⟨n, rfl⟩ : ∃ k, n = k + 1 := ⟨n - 1, by omega⟩
      apply bind_congr
      rintro (t | a) left hout
      · have hless := h s rs t left hout
        exact ih (by omega) (by omega)
      · rfl

/-- **The equation of a loop.** -/
theorem loop_eq {body : τ → Driver ε ρ (τ ⊕ α)} (h : Takes body) (s : τ) :
    loop body s = body s >>= Sum.elim (loop body) pure := by
  funext rs
  show loopN body (rs.length + 1) s rs = _
  apply bind_congr
  rintro (t | a) left hout
  · exact loopN_of_lt h (h s rs t left hout)
  · rfl

theorem poll_cons (e : ρ → ε) (ready : ρ → Bool) (r : ρ) (rs : List ρ) :
    poll e ready (r :: rs) =
      if ready r then ⟨[e r], .returned r rs⟩ else ⟨e r :: (poll e ready rs).events, (poll e ready rs).outcome⟩ := by
  have htakes : Takes (pollPass e ready) := by
    rintro ⟨⟩ (_ | ⟨r, rs⟩) t left hout
    · cases hout
    · obtain ⟨-, rfl⟩ := Outcome.returned.inj hout
      exact Nat.lt_succ_self _
  have hpass : (pollPass e ready () (r :: rs)).outcome = .returned (if ready r then .inr r else .inl ()) rs := rfl
  have hloop := congrFun (loop_eq htakes ()) (r :: rs)
  rw [bind_returned hpass] at hloop
  rw [poll, hloop]
  split_ifs
  · rfl
  · rfl

end Driver

/-! ### Programs and devices -/

/-- A run of a device over writes and reads. -/
inductive Steps (step : σ → ε → σ → Prop) : σ → List ε → σ → Prop
  | nil (u : σ) : Steps step u [] u
  | cons {u v t : σ} {e : ε} {es : List ε} (hstep : step u e v) (hrest : Steps step v es t) : Steps step u (e :: es) t

theorem steps_append {step : σ → ε → σ → Prop} {u t : σ} {es es' : List ε} :
    Steps step u (es ++ es') t ↔ ∃ v, Steps step u es v ∧ Steps step v es' t := by
  induction es generalizing u with
  | nil =>
      constructor
      · exact fun h => ⟨u, .nil u, h⟩
      · rintro ⟨v, ⟨⟩, h⟩
        exact h
  | cons e es ih =>
      constructor
      · rintro (_ | ⟨hstep, hrest⟩)
        obtain ⟨v, hes, hes'⟩ := ih.mp hrest
        exact ⟨v, .cons hstep hes, hes'⟩
      · rintro ⟨v, _ | ⟨hstep, hes⟩, hes'⟩
        exact .cons hstep (ih.mpr ⟨v, hes, hes'⟩)

/-- What the device is like when a program stands so: as `Post` says if it has returned, as `Wait` says while it
waits. A program that has gone wrong meets no condition. -/
def Outcome.Meets (Wait : σ → Prop) (Post : α → σ → Prop) (t : σ) : Outcome ρ α → Prop
  | .returned a _ => Post a t
  | .waiting => Wait t
  | .stuck => False

/-- A device in `Pre` ends up as `Meets` says. -/
def Triple (step : σ → ε → σ → Prop) (Wait Pre : σ → Prop) (p : Driver ε ρ α) (Post : α → σ → Prop) : Prop :=
  ∀ rs u t, Pre u → Steps step u (p rs).events t → (p rs).outcome.Meets Wait Post t

namespace Triple

variable {step : σ → ε → σ → Prop} {Wait Wait' Pre Pre' : σ → Prop} {Post Post' : α → σ → Prop}

theorem pure {a : α} (h : ∀ u, Pre u → Post a u) : Triple step Wait Pre (Pure.pure a : Driver ε ρ α) Post := by
  rintro rs u t hpre ⟨⟩
  exact h _ hpre

theorem write {e : ε} {Post : Unit → σ → Prop} (h : ∀ u t, Pre u → step u e t → Post () t) :
    Triple step Wait Pre (Driver.write e : Driver ε ρ Unit) Post := by
  rintro rs u t hpre (_ | ⟨hstep, ⟨⟩⟩)
  exact h _ _ hpre hstep

theorem read {e : ρ → ε} {Post : ρ → σ → Prop} (hwait : ∀ u, Pre u → Wait u)
    (h : ∀ r u t, Pre u → step u (e r) t → Post r t) : Triple step Wait Pre (Driver.read e) Post := by
  intro rs u t hpre hsteps
  cases rs with
  | nil =>
      obtain ⟨⟩ := hsteps
      exact hwait _ hpre
  | cons r rs =>
      obtain _ | ⟨hstep, ⟨⟩⟩ := hsteps
      exact h r _ _ hpre hstep

/-- The rule of consequence. -/
theorem conseq {p : Driver ε ρ α} (h : Triple step Wait Pre p Post) (hpre : ∀ u, Pre' u → Pre u)
    (hpost : ∀ a t, Post a t → Post' a t) (hwait : ∀ t, Wait t → Wait' t) : Triple step Wait' Pre' p Post' := by
  intro rs u t hu hsteps
  have hmeets := h rs u t (hpre u hu) hsteps
  cases hout : (p rs).outcome with
  | returned a left =>
      rw [hout] at hmeets
      exact hpost a t hmeets
  | waiting =>
      rw [hout] at hmeets
      exact hwait t hmeets
  | stuck =>
      rw [hout] at hmeets
      exact hmeets.elim

/-- The rule of sequencing. -/
theorem bind {p : Driver ε ρ α} {f : α → Driver ε ρ β} {Post' : β → σ → Prop} (h : Triple step Wait Pre p Post)
    (hf : ∀ a, Triple step Wait (Post a) (f a) Post') : Triple step Wait Pre (p >>= f) Post' := by
  intro rs u t hu hsteps
  rw [Driver.bind_apply] at hsteps ⊢
  cases hout : (p rs).outcome with
  | returned a left =>
      rw [hout] at hsteps
      obtain ⟨v, hfirst, hsecond⟩ := steps_append.mp hsteps
      have hmid := h rs u v hu hfirst
      rw [hout] at hmid
      exact hf a left v t hmid hsecond
  | waiting =>
      rw [hout] at hsteps
      have hmeets := h rs u t hu hsteps
      rw [hout] at hmeets
      exact hmeets
  | stuck =>
      rw [hout] at hsteps
      have hmeets := h rs u t hu hsteps
      rw [hout] at hmeets
      exact hmeets.elim

/-- A condition that is not about the device is a hypothesis. -/
theorem assume {φ : Prop} {p : Driver ε ρ α} (h : φ → Triple step Wait Pre p Post) :
    Triple step Wait (fun u => φ ∧ Pre u) p Post := fun rs u t hu hsteps => h hu.1 rs u t hu.2 hsteps

/-- The rule of a branch. -/
theorem ite {c : Prop} [Decidable c] {p q : Driver ε ρ α} (hp : c → Triple step Wait Pre p Post)
    (hq : ¬ c → Triple step Wait Pre q Post) : Triple step Wait Pre (if c then p else q) Post := by
  split_ifs with hc
  · exact hp hc
  · exact hq hc

/-- The rule of a loop, with its invariant. -/
theorem loop {body : τ → Driver ε ρ (τ ⊕ α)} (Inv : τ → σ → Prop) (hwait : ∀ s u, Inv s u → Wait u)
    (hbody : ∀ s, Triple step Wait (Inv s) (body s) fun r => Sum.elim Inv Post r) (s : τ) :
    Triple step Wait (Inv s) (Driver.loop body s) Post := by
  suffices h : ∀ n s, Triple step Wait (Inv s) (Driver.loopN body n s) Post from fun rs => h (rs.length + 1) s rs
  intro n
  induction n with
  | zero =>
      rintro s rs u t hu ⟨⟩
      exact hwait s _ hu
  | succ n ih =>
      intro s
      refine (hbody s).bind ?_
      rintro (s' | a)
      · exact ih s'
      · exact .pure fun u hu => hu

/-- The rule of polling: a reply that is waited for changes nothing. -/
theorem poll {e : ρ → ε} {ready : ρ → Bool} {Post : ρ → σ → Prop} (hwait : ∀ u, Pre u → Wait u)
    (hbusy : ∀ r u t, Pre u → step u (e r) t → ready r = false → Pre t)
    (hready : ∀ r u t, Pre u → step u (e r) t → ready r = true → Post r t) :
    Triple step Wait Pre (Driver.poll e ready) Post := by
  refine Triple.loop (fun _ => Pre) (fun _ => hwait) (fun _ => ?_) ()
  have hread : Triple step Wait Pre (Driver.read e) fun r t => if ready r then Post r t else Pre t := by
    refine .read hwait fun r u t hpre hstep => ?_
    split_ifs with h
    · exact hready r u t hpre hstep h
    · exact hbusy r u t hpre hstep (by simpa using h)
  refine hread.bind fun r => .pure fun u hu => ?_
  split_ifs at hu ⊢
  · exact hu
  · exact hu

end Triple

/-! ### Programs that return -/

/-- The program returns `a` as soon as `n` of the replies are as it waits for, and leaves the other ones. -/
def Returns (Ready : ρ → Bool) (p : Driver ε ρ α) (n : Nat) (a : α) : Prop :=
  ∀ rs, n ≤ rs.countP Ready →
    ∃ left, (p rs).outcome = .returned a left ∧ left.countP Ready + n = rs.countP Ready

namespace Returns

variable {Ready : ρ → Bool}

theorem pure (a : α) : Returns Ready (Pure.pure a : Driver ε ρ α) 0 a := fun rs _ => ⟨rs, rfl, rfl⟩

theorem write (e : ε) : Returns Ready (Driver.write e) 0 () := fun rs _ => ⟨rs, rfl, rfl⟩

/-- The rule of sequencing. -/
theorem bind {p : Driver ε ρ α} {f : α → Driver ε ρ β} {m n : Nat} {a : α} {b : β} (hp : Returns Ready p m a)
    (hf : Returns Ready (f a) n b) : Returns Ready (p >>= f) (m + n) b := by
  intro rs hcount
  obtain ⟨left, hout, hleft⟩ := hp rs (Nat.le_trans (Nat.le_add_right m n) hcount)
  obtain ⟨rest, hrest, hcounted⟩ := hf left (by omega)
  refine ⟨rest, ?_, by omega⟩
  rw [Driver.bind_returned hout]
  exact hrest

theorem bind_pure {p : Driver ε ρ α} {n : Nat} {a : α} (hp : Returns Ready p n a) (f : α → β) :
    Returns Ready (p >>= fun a => Pure.pure (f a)) n (f a) :=
  bind (f := fun a => Pure.pure (f a)) hp (Returns.pure (f a))

/-- The rule of polling: one of the replies is waited for. -/
theorem poll (e : ρ → ε) {f : ρ → Driver ε ρ β} {n : Nat} {b : β} (hf : ∀ r, Returns Ready (f r) n b) :
    Returns Ready (Driver.poll e Ready >>= f) (n + 1) b := by
  intro rs hcount
  have hpoll : ∃ r left, (Driver.poll e Ready rs).outcome = .returned r left ∧
      left.countP Ready + 1 = rs.countP Ready := by
    induction rs with
    | nil => exact absurd hcount (by simp)
    | cons r rs ih =>
        rw [Driver.poll_cons]
        by_cases hr : Ready r
        · exact ⟨r, rs, by rw [if_pos hr], by rw [List.countP_cons_of_pos hr]⟩
        · rw [List.countP_cons_of_neg hr] at hcount ⊢
          obtain ⟨r', left, hout, hleft⟩ := ih hcount
          exact ⟨r', left, by rw [if_neg hr, hout], hleft⟩
  obtain ⟨r, left, hout, hleft⟩ := hpoll
  obtain ⟨rest, hrest, hcounted⟩ := hf r left (by omega)
  refine ⟨rest, ?_, by omega⟩
  rw [Driver.bind_returned hout]
  exact hrest

end Returns

end XosKernel.Device
