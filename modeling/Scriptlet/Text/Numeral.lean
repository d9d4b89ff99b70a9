/-! Decimal numerals and the signed 64-bit range. -/
namespace Scriptlet.Text

/-- The value of a run of decimal digits, most significant digit first. -/
def digitsValue (cs : List Char) : Nat :=
  cs.foldl (fun n c => 10 * n + (c.toNat - '0'.toNat)) 0

/-- Reads a non-empty run of the digits `0` to `9`. -/
def natural? (cs : List Char) : Option Nat :=
  if !cs.isEmpty && cs.all Char.isDigit then some (digitsValue cs) else none

/-- The number of signed 64-bit integers that are not negative. -/
def int64Bound : Nat := 0x8000000000000000

/-- Reads a numeral with an optional sign whose value fits in a signed 64-bit integer. -/
def int64? (s : String) : Option Int :=
  match s.toList with
  | [] => none
  | c :: cs =>
    if c = '-' then
      (natural? cs).bind fun n => if n ≤ int64Bound then some (-(n : Int)) else none
    else
      (natural? (if c = '+' then cs else c :: cs)).bind fun n =>
        if n < int64Bound then some (n : Int) else none

theorem natural?_eq_some_iff {cs : List Char} {n : Nat} :
    natural? cs = some n ↔ cs ≠ [] ∧ cs.all Char.isDigit = true ∧ n = digitsValue cs := by
  cases cs with
  | nil => simp [natural?]
  | cons c cs =>
    unfold natural?
    simp only [List.isEmpty_cons, Bool.not_false, Bool.true_and, ne_eq, reduceCtorEq,
      not_false_eq_true, true_and, Option.ite_none_right_eq_some, Option.some.injEq]
    exact and_congr_right fun _ => eq_comm

/-- On a run of digits only the upper end of the range matters. -/
theorem int64?_of_digits {s : String} (hne : s.toList ≠ [])
    (hd : s.toList.all Char.isDigit = true) :
    int64? s =
      if digitsValue s.toList < int64Bound then some (digitsValue s.toList : Int) else none := by
  unfold int64?
  split
  next h => exact absurd h hne
  next c cs h =>
    rw [h] at hd ⊢
    have hc : c.isDigit = true := by
      rw [List.all_cons, Bool.and_eq_true] at hd
      exact hd.1
    have hm : c ≠ '-' := by
      rintro rfl
      simp at hc
    have hp : c ≠ '+' := by
      rintro rfl
      simp at hc
    rw [if_neg hm, if_neg hp, natural?_eq_some_iff.2 ⟨by simp, hd, rfl⟩]
    rfl

end Scriptlet.Text
