import Mathlib.Data.Nat.Digits.Defs
import SchemaLang.Text.Numeral

/-!
# Numerals and their values

What the readers of numbers accept, said in terms of digits and powers of ten.

* `Text.Denotes` relates a text of ASCII digits to its decimal value, which may be of any size, with any number of
  leading zeros. `Text.DenotesUnsigned` and `Text.DenotesSigned` allow a sign in front.
* The readers go through the digits from the left: ten times what came before, and one more digit. That comes to the
  same value (`Text.digitsValue_eq_ofDigits`).
* So each reader gives exactly the value that a text denotes, if it is in range (`Text.signed32?_eq_some_iff`,
  `Text.unsigned32?_eq_some_iff`).
-/

namespace SchemaLang.Text

/-- The number that an ASCII digit stands for. -/
def digitValue (d : Char) : Nat := d.toNat - '0'.toNat

/-- A text of ASCII digits, at least one, and its decimal value: the last digit counts once, the one before it ten
times, and so on. -/
structure Denotes (s : List Char) (n : Nat) : Prop where
  ne_nil : s ≠ []
  isDigit : ∀ c ∈ s, c.isDigit = true
  value_eq : Nat.ofDigits 10 (s.reverse.map digitValue) = n

/-- A text of digits behind a plus sign or no sign, and its value. -/
inductive DenotesUnsigned : List Char → Nat → Prop where
  | bare {ds : List Char} {n : Nat} (h : Denotes ds n) : DenotesUnsigned ds n
  | plus {ds : List Char} {n : Nat} (h : Denotes ds n) : DenotesUnsigned ('+' :: ds) n

/-- A text of digits behind one sign or none, and its value. -/
inductive DenotesSigned : List Char → Int → Prop where
  | bare {ds : List Char} {n : Nat} (h : Denotes ds n) : DenotesSigned ds n
  | plus {ds : List Char} {n : Nat} (h : Denotes ds n) : DenotesSigned ('+' :: ds) n
  | minus {ds : List Char} {n : Nat} (h : Denotes ds n) : DenotesSigned ('-' :: ds) (-n)

/-! ## Digits -/

/-- Going through the digits from the left comes to the sum over their places. -/
theorem digitsValue_eq_ofDigits (ds : List Char) : digitsValue ds = Nat.ofDigits 10 (ds.reverse.map digitValue) := by
  rw [Nat.ofDigits_eq_foldr, List.foldr_map, List.foldr_reverse, digitsValue]
  congr 1
  funext n d
  exact Nat.add_comm _ _

theorem natural?_eq_some_iff {s : List Char} {n : Nat} : natural? s = some n ↔ Denotes s n := by
  rw [natural?]
  split
  · rename_i h
    rw [Option.some.injEq, digitsValue_eq_ofDigits]
    exact ⟨fun hv => ⟨h.1, List.all_eq_true.1 h.2, hv⟩, Denotes.value_eq⟩
  · rename_i h
    simp only [reduceCtorEq, false_iff]
    exact fun hd => h ⟨hd.ne_nil, List.all_eq_true.2 hd.isDigit⟩

theorem Denotes.natural?_eq {s : List Char} {n : Nat} (h : Denotes s n) : natural? s = some n :=
  natural?_eq_some_iff.2 h

/-- Digits do not start with a sign. -/
theorem Denotes.ne_cons {s : List Char} {n : Nat} (h : Denotes s n) {sign : Char} (hs : sign.isDigit = false)
    (ds : List Char) : s ≠ sign :: ds := by
  rintro rfl
  have hd := h.isDigit sign List.mem_cons_self
  rw [hs] at hd
  cases hd

/-! ## Signs and ranges -/

theorem integer?_eq_some_iff {s : List Char} {v : Int} : integer? s = some v ↔ DenotesSigned s v := by
  constructor
  · intro h
    unfold integer? at h
    split at h <;> obtain ⟨n, hn, rfl⟩ := Option.map_eq_some_iff.1 h
    · exact .plus (natural?_eq_some_iff.1 hn)
    · exact .minus (natural?_eq_some_iff.1 hn)
    · exact .bare (natural?_eq_some_iff.1 hn)
  · intro h
    cases h with
    | bare h =>
      unfold integer?
      split
      · exact absurd rfl (h.ne_cons (by decide) _)
      · exact absurd rfl (h.ne_cons (by decide) _)
      · rw [h.natural?_eq]
        rfl
    | plus h | minus h =>
      rw [integer?, h.natural?_eq]
      rfl

/-- A signed 32-bit integer is read from exactly the texts that denote it. -/
theorem signed32?_eq_some_iff {s : List Char} {v : Int} :
    signed32? s = some v ↔ DenotesSigned s v ∧ -2 ^ 31 ≤ v ∧ v ≤ 2 ^ 31 - 1 := by
  rw [signed32?, Option.filter_eq_some_iff, integer?_eq_some_iff, decide_eq_true_eq]
  constructor <;> rintro ⟨h, h₀, h₁⟩ <;> exact ⟨h, by omega, by omega⟩

/-- An unsigned 32-bit integer is read from exactly the texts that denote it. -/
theorem unsigned32?_eq_some_iff {s : List Char} {n : Nat} :
    unsigned32? s = some n ↔ DenotesUnsigned s n ∧ n ≤ 2 ^ 32 - 1 := by
  have hin : decide (n < 4294967296) = true ↔ n ≤ 2 ^ 32 - 1 := by
    rw [decide_eq_true_eq]
    omega
  unfold unsigned32?
  rw [Option.filter_eq_some_iff, hin]
  refine and_congr_left fun _ => ⟨fun h => ?_, fun h => ?_⟩
  · split at h
    · exact .plus (natural?_eq_some_iff.1 h)
    · exact .bare (natural?_eq_some_iff.1 h)
  · cases h with
    | bare h =>
      split
      · exact absurd rfl (h.ne_cons (by decide) _)
      · exact h.natural?_eq
    | plus h => exact h.natural?_eq

example : Denotes ['0', '4', '2'] 42 := natural?_eq_some_iff.1 (by decide)

end SchemaLang.Text
