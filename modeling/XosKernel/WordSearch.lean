import XosKernel.LoopRules
import Mathlib.Data.Nat.ModEq

/-! A search in steps through the words: `for (i = first; i < last; i += step)`, left at the first `i` that is
accepted. The words wrap, so the search walks around a circle. Where it is on its way is the distance
`(i - first).toNat`, and the words it can come to are those at a distance that is a multiple of `step`.
`search_spec` says how it ends: at the first of these that is accepted or that is not below `last`, and never when
there is none. -/

namespace XosKernel.Loop

variable {w : Nat}

/-- The search; `none` when it never ends. No search takes more passes than there are words. -/
def search (accept : BitVec w → Bool) (last step first : BitVec w) : Option (Option (BitVec w)) :=
  run (fun i => if i < last then if accept i then .done (some i) else .next (i + step) else .done none) (2 ^ w) first

/-- The words that the search can come to. -/
def OnWay (step first i : BitVec w) : Prop := step.toNat ∣ (i - first).toNat

/-- The search goes past a word. -/
def Passes (accept : BitVec w → Bool) (last i : BitVec w) : Prop := i < last ∧ accept i = false

/-- The search goes past all words of its way before `q`. -/
def PassesBefore (accept : BitVec w → Bool) (last step first q : BitVec w) : Prop :=
  ∀ p, OnWay step first p → (p - first).toNat < (q - first).toNat → Passes accept last p

/-- How a search ends. -/
inductive SearchSpec (accept : BitVec w → Bool) (last step first : BitVec w) : Option (Option (BitVec w)) → Prop
  | found (q : BitVec w) (hway : OnWay step first q) (hlt : q < last) (haccept : accept q = true)
      (hbefore : PassesBefore accept last step first q) : SearchSpec accept last step first (some (some q))
  | missed (q : BitVec w) (hway : OnWay step first q) (hge : last ≤ q)
      (hbefore : PassesBefore accept last step first q) : SearchSpec accept last step first (some none)
  | hang (hall : ∀ p, OnWay step first p → Passes accept last p) : SearchSpec accept last step first none

section

variable {accept : BitVec w → Bool} {last step first i : BitVec w}

theorem onWay_self (step first : BitVec w) : OnWay step first first := by
  rw [OnWay, BitVec.sub_self]
  simp

theorem onWay_zero (step i : BitVec w) : OnWay step 0 i ↔ step.toNat ∣ i.toNat := by
  rw [OnWay, show i - 0 = i from BitVec.sub_zero i]

theorem toNat_add_sub (i step first : BitVec w) :
    (i + step - first).toNat = ((i - first).toNat + step.toNat) % 2 ^ w := by
  rw [← BitVec.toNat_add]
  congr 1
  rw [BitVec.sub_eq_add_neg, BitVec.sub_eq_add_neg, BitVec.add_assoc, BitVec.add_assoc, BitVec.add_comm step]

theorem OnWay.next (hstep : step.toNat ∣ 2 ^ w) (h : OnWay step first i) : OnWay step first (i + step) := by
  rw [OnWay, toNat_add_sub, Nat.dvd_mod_iff hstep]
  exact Nat.dvd_add h (Nat.dvd_refl _)

/-- Distances from `first`, for words at or behind it and for words before it. -/
theorem dist_lt_of_le {p q : BitVec w} (hp : first ≤ p) (hpq : p < q) : (p - first).toNat < (q - first).toNat := by
  have hle := BitVec.le_def.mp hp
  have hlt := BitVec.lt_def.mp hpq
  rw [BitVec.toNat_sub_of_le hp, BitVec.toNat_sub_of_le (BitVec.le_def.mpr (by omega))]
  omega

theorem dist_lt_of_lt {p q : BitVec w} (hq : q < first) (hp : first ≤ p ∨ p < q) :
    (p - first).toNat < (q - first).toNat := by
  have hqlt := BitVec.lt_def.mp hq
  have hwide := first.isLt
  have hpwide := p.isLt
  rcases hp with hp | hp
  · have hle := BitVec.le_def.mp hp
    rw [BitVec.toNat_sub_of_le hp, BitVec.toNat_sub, Nat.mod_eq_of_lt (by omega)]
    omega
  · have hlt := BitVec.lt_def.mp hp
    rw [BitVec.toNat_sub, BitVec.toNat_sub, Nat.mod_eq_of_lt (by omega), Nat.mod_eq_of_lt (by omega)]
    omega

/-- The words of the way are those that agree with its first word modulo the step. -/
theorem onWay_iff (hstep : step.toNat ∣ 2 ^ w) :
    OnWay step first i ↔ i.toNat % step.toNat = first.toNat % step.toNat := by
  have hfirst := first.isLt
  have hsum : 2 ^ w - first.toNat + i.toNat + first.toNat = 2 ^ w + i.toNat := by omega
  have hround : (2 ^ w + i.toNat) % step.toNat = i.toNat % step.toNat := by
    rw [Nat.add_mod, Nat.mod_eq_zero_of_dvd hstep, Nat.zero_add, Nat.mod_mod]
  rw [OnWay, BitVec.toNat_sub, Nat.dvd_mod_iff hstep]
  constructor
  · intro hdvd
    rw [← hround, ← hsum, Nat.add_mod, Nat.mod_eq_zero_of_dvd hdvd, Nat.zero_add, Nat.mod_mod]
  · intro hmod
    have hcongr : 2 ^ w - first.toNat + i.toNat + first.toNat ≡ 0 + first.toNat [MOD step.toNat] := by
      rw [hsum, Nat.zero_add]
      exact hround.trans hmod
    exact Nat.dvd_of_mod_eq_zero (Nat.ModEq.add_right_cancel' _ hcongr)

theorem eq_of_sub_toNat_eq {p q first : BitVec w} (h : (p - first).toNat = (q - first).toNat) : p = q := by
  have hsub := BitVec.eq_of_toNat_eq h
  rwa [BitVec.sub_eq_iff_eq_add, BitVec.sub_add_cancel] at hsub

/-- A pass takes the search past one word. -/
theorem PassesBefore.next (hway : OnWay step first i) (hbefore : PassesBefore accept last step first i)
    (hpasses : Passes accept last i) : PassesBefore accept last step first (i + step) := by
  intro p hp hlt
  rw [toNat_add_sub] at hlt
  have hle := Nat.mod_le ((i - first).toNat + step.toNat) (2 ^ w)
  rcases Nat.lt_trichotomy (p - first).toNat (i - first).toNat with hless | heq | hmore
  · exact hbefore p hp hless
  · rw [eq_of_sub_toNat_eq heq]
    exact hpasses
  · -- two words of the way are at least a step apart
    obtain ⟨a, ha⟩ := hp
    obtain ⟨b, hb⟩ := hway
    have hab : b < a := Nat.lt_of_mul_lt_mul_left (ha ▸ hb ▸ hmore)
    have hstride := Nat.mul_le_mul_left step.toNat (Nat.succ_le_of_lt hab)
    rw [Nat.mul_succ] at hstride
    omega

/-- A word of the way that the search cannot pass is come nearer to by each pass. -/
theorem toNat_sub_next_lt {q : BitVec w} (hpos : 0 < step.toNat) (hstep : step.toNat ∣ 2 ^ w)
    (hq : OnWay step first q) (hi : OnWay step first i) (hne : i ≠ q) :
    (q - (i + step)).toNat < (q - i).toNat := by
  have hway : step.toNat ∣ (q - i).toNat := by
    have hsplit : q - i = (q - first) - (i - first) := by
      rw [BitVec.sub_sub, BitVec.add_comm first, BitVec.sub_add_cancel]
    rw [hsplit, BitVec.toNat_sub, Nat.dvd_mod_iff hstep]
    exact Nat.dvd_add (Nat.dvd_sub hstep hi) hq
  have hnonzero : (q - i).toNat ≠ 0 := fun hzero => hne <| by
    have hsub : q - i = 0#w := BitVec.eq_of_toNat_eq (by simpa using hzero)
    rw [BitVec.sub_eq_iff_eq_add, BitVec.zero_add] at hsub
    exact hsub.symm
  have hle := Nat.le_of_dvd (Nat.pos_of_ne_zero hnonzero) hway
  rw [← BitVec.sub_sub, BitVec.toNat_sub_of_le (BitVec.le_def.mpr hle)]
  omega

/-- **The search**: it ends at the first word of its way that it cannot pass. -/
theorem search_spec (accept : BitVec w → Bool) (last : BitVec w) {step : BitVec w} (first : BitVec w)
    (hpos : 0 < step.toNat) (hstep : step.toNat ∣ 2 ^ w) :
    SearchSpec accept last step first (search accept last step first) := by
  let Inv (i : BitVec w) : Prop := OnWay step first i ∧ PassesBefore accept last step first i
  have hstart : Inv first := ⟨onWay_self step first, fun p _ hlt => by
    rw [BitVec.sub_self] at hlt
    simp at hlt⟩
  have hnext : ∀ i j, Inv i → (if i < last then if accept i then Pass.done (some i) else .next (i + step)
      else .done none : Pass (BitVec w) (Option (BitVec w))) = .next j → Inv j ∧ j = i + step ∧ Passes accept last i := by
    rintro i j ⟨hway, hbefore⟩ hbody
    split at hbody
    · rename_i hlt
      split at hbody
      · cases hbody
      · rename_i haccept
        cases hbody
        have hpasses : Passes accept last i := ⟨hlt, by simpa using haccept⟩
        exact ⟨⟨hway.next hstep, hbefore.next hway hpasses⟩, rfl, hpasses⟩
    · cases hbody
  cases hsearch : search accept last step first with
  | none =>
      refine .hang fun q hq => ?_
      by_contra hstop
      -- the search would have stopped at `q` at the latest
      obtain ⟨r, hr⟩ := run_terminates Inv (fun i => (q - i).toNat) (fun i j hi hbody => by
        obtain ⟨hj, rfl, hpasses⟩ := hnext i j hi hbody
        exact ⟨hj, toNat_sub_next_lt hpos hstep hq hi.1 fun heq => hstop (heq ▸ hpasses)⟩) (2 ^ w) hstart
        (q - first).isLt
      rw [search, hr] at hsearch
      cases hsearch
  | some r =>
      refine @run_sound _ _ _ Inv (fun r => SearchSpec accept last step first (some r))
        (fun i j hi hbody => (hnext i j hi hbody).1) (fun i r hi hbody => ?_) (2 ^ w) _ _ hstart hsearch
      split at hbody
      · rename_i hlt
        split at hbody
        · rename_i haccept
          cases hbody
          exact .found i hi.1 hlt haccept hi.2
        · cases hbody
      · rename_i hge
        cases hbody
        exact .missed i hi.1 (BitVec.not_lt.mp hge) hi.2

end

end XosKernel.Loop
