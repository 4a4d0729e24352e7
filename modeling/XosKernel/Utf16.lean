import XosKernel.Utf8

/-! UTF-16: the units of a code point, and the characters of any sequence of units. A high surrogate with a low one behind
it is one character; every other unit is a character of its own, and a surrogate that is left over stands for U+FFFD. -/

namespace XosKernel.Utf16

abbrev Unit16 := BitVec 16

def IsHigh (u : Unit16) : Prop := 0xd800 ≤ u.toNat ∧ u.toNat < 0xdc00

def IsLow (u : Unit16) : Prop := 0xdc00 ≤ u.toNat ∧ u.toNat < 0xe000

instance (u : Unit16) : Decidable (IsHigh u) := inferInstanceAs (Decidable (_ ∧ _))

instance (u : Unit16) : Decidable (IsLow u) := inferInstanceAs (Decidable (_ ∧ _))

/-- The units of a code point. -/
def encode (c : Nat) : List Unit16 :=
  if c < 0x10000 then [BitVec.ofNat 16 c]
  else [BitVec.ofNat 16 (0xd800 + (c - 0x10000) / 0x400), BitVec.ofNat 16 (0xdc00 + (c - 0x10000) % 0x400)]

/-- The characters, each as its units. -/
def characters : List Unit16 → List (List Unit16)
  | [] => []
  | [u] => [[u]]
  | u :: v :: us =>
      if IsHigh u ∧ IsLow v then [u, v] :: characters us else [u] :: characters (v :: us)

/-- The code point of a character. -/
def codePoint : List Unit16 → Nat
  | [u] => if IsHigh u ∨ IsLow u then 0xfffd else u.toNat
  | [u, v] => 0x10000 + (u.toNat - 0xd800) * 0x400 + (v.toNat - 0xdc00)
  | _ => 0

example : (characters [0xd83d, 0xde00, 0xd800, 0x61]).map codePoint = [0x1f600, 0xfffd, 0x61] := by decide

/-- A character whose surrogate waits for a low one. -/
def LoneHigh : List Unit16 → Prop
  | [u] => IsHigh u
  | _ => False

instance : DecidablePred LoneHigh
  | [] => inferInstanceAs (Decidable False)
  | [u] => inferInstanceAs (Decidable (IsHigh u))
  | _ :: _ :: _ => inferInstanceAs (Decidable False)

/-- The characters `cs` stand at the start of a sequence, with the rest behind them. -/
inductive Splits : List Unit16 → List (List Unit16) → List Unit16 → Prop
  | nil (us : List Unit16) : Splits us [] us
  | unit {u : Unit16} {us rest : List Unit16} {cs : List (List Unit16)}
      (hlone : IsHigh u → ∀ v ∈ us.head?, ¬ IsLow v) (hrest : Splits us cs rest) : Splits (u :: us) ([u] :: cs) rest
  | pair {u v : Unit16} {us rest : List Unit16} {cs : List (List Unit16)} (hhigh : IsHigh u) (hlow : IsLow v)
      (hrest : Splits us cs rest) : Splits (u :: v :: us) ([u, v] :: cs) rest

theorem characters_cons {u : Unit16} {us : List Unit16} (h : IsHigh u → ∀ v ∈ us.head?, ¬ IsLow v) :
    characters (u :: us) = [u] :: characters us := by
  cases us with
  | nil => rfl
  | cons v us =>
      rw [characters, if_neg]
      rintro ⟨hhigh, hlow⟩
      exact h hhigh v rfl hlow

theorem characters_pair {u v : Unit16} (hhigh : IsHigh u) (hlow : IsLow v) (us : List Unit16) :
    characters (u :: v :: us) = [u, v] :: characters us := by
  rw [characters, if_pos ⟨hhigh, hlow⟩]

variable {us rest : List Unit16} {cs : List (List Unit16)}

theorem Splits.append (h : Splits us cs rest) : cs.flatten ++ rest = us := by
  induction h with
  | nil us => rfl
  | unit hlone hrest ih => rw [List.flatten_cons, List.append_assoc, ih, List.singleton_append]
  | pair hhigh hlow hrest ih =>
      rw [List.flatten_cons, List.append_assoc, ih]
      rfl

theorem Splits.take (h : Splits us cs rest) : (characters us).take cs.length = cs := by
  induction h with
  | nil us => rfl
  | unit hlone hrest ih => rw [characters_cons hlone, List.length_cons, List.take_succ_cons, ih]
  | pair hhigh hlow hrest ih => rw [characters_pair hhigh hlow, List.length_cons, List.take_succ_cons, ih]

theorem last_of_cons {P : List Unit16 → Prop} {c : List Unit16} (h : ∀ d ∈ (c :: cs).getLast?, P d) :
    ∀ d ∈ cs.getLast?, P d := by
  intro d hd
  refine h d ?_
  cases cs with
  | nil => cases hd
  | cons e cs => rwa [List.getLast?_cons_cons]

/-- What may stand behind the characters: no low surrogate behind a high one. -/
theorem Splits.lone (h : Splits us cs rest) {c : List Unit16} (hlast : c ∈ cs.getLast?) (hc : LoneHigh c) :
    ∀ v ∈ rest.head?, ¬ IsLow v := by
  induction h with
  | nil us => cases hlast
  | @unit u us rest cs hlone hrest ih =>
      cases cs with
      | nil =>
          rw [List.getLast?_singleton, Option.mem_some_iff] at hlast
          subst hlast
          cases hrest
          exact hlone hc
      | cons d cs => exact ih (by rwa [List.getLast?_cons_cons] at hlast)
  | @pair u v us rest cs hhigh hlow hrest ih =>
      cases cs with
      | nil =>
          rw [List.getLast?_singleton, Option.mem_some_iff] at hlast
          subst hlast
          exact hc.elim
      | cons d cs => exact ih (by rwa [List.getLast?_cons_cons] at hlast)

/-- Another rest behind the characters. -/
theorem Splits.behind (h : Splits us cs rest) {rest' : List Unit16}
    (hrest' : ∀ c ∈ cs.getLast?, LoneHigh c → ∀ v ∈ rest'.head?, ¬ IsLow v) :
    Splits (cs.flatten ++ rest') cs rest' := by
  induction h with
  | nil us => exact .nil rest'
  | @unit u us rest cs hlone hrest ih =>
      refine .unit (fun hhigh v hv => ?_) (ih (last_of_cons hrest'))
      cases cs with
      | nil => exact hrest' [u] rfl hhigh v hv
      | cons d cs =>
          refine hlone hhigh v ?_
          have happend := hrest.append
          cases hrest with
          | unit => rwa [← happend]
          | pair => rwa [← happend]
  | pair hhigh hlow hrest ih => exact .pair hhigh hlow (ih (last_of_cons hrest'))

theorem codePoint_surrogate {u : Unit16} (h : IsHigh u ∨ IsLow u) : codePoint [u] = 0xfffd := if_pos h

theorem codePoint_unit {u : Unit16} (h : ¬ (IsHigh u ∨ IsLow u)) : codePoint [u] = u.toNat := if_neg h

theorem isScalar_unit (u : Unit16) : Utf8.IsScalar (codePoint [u]) := by
  have hu := u.isLt
  by_cases h : IsHigh u ∨ IsLow u
  · rw [codePoint_surrogate h]
    constructor <;> omega
  · rw [codePoint_unit h]
    simp only [IsHigh, IsLow] at h
    constructor <;> omega

theorem isScalar_pair {u v : Unit16} (hhigh : IsHigh u) (hlow : IsLow v) : Utf8.IsScalar (codePoint [u, v]) := by
  simp only [IsHigh, IsLow] at hhigh hlow
  show Utf8.IsScalar (0x10000 + (u.toNat - 0xd800) * 0x400 + (v.toNat - 0xdc00))
  exact ⟨by omega, by omega⟩

end XosKernel.Utf16
