/-
Integer literals: decimal, or hexadecimal when a dollar sign stands anywhere.

A value is a signed integer of 64 bits.  What is no literal, or does not fit, reads
as zero.  Only hexadecimal text with a `-` in front can overflow, and only for the least
value, which has no negative in range and is left as it is.

Main definitions:
* `Literal.ofSigned?` — an optional sign and digits of a base, within range;
* `Literal.negate` — the negative of a value, in 64 bits;
* `Literal.hex` — hexadecimal text, every dollar sign left out;
* `Literal.value` — the value of a literal of either form.

Main statements:
* `Literal.value_range` — every text has a value of 64 bits.
-/
import AsmCatalog.Text.Basic

namespace AsmCatalog.Literal

/-- The least value. -/
def least : Int := -9223372036854775808

/-- The greatest value. -/
def greatest : Int := 9223372036854775807

/-- The value of a digit of the base, a letter in either case. -/
def digit? (base : Nat) (c : Char) : Option Nat :=
  let n :=
    if '0' ≤ c ∧ c ≤ '9' then some (c.toNat - '0'.toNat)
    else if 'a' ≤ c ∧ c ≤ 'f' then some (c.toNat - 'a'.toNat + 10)
    else if 'A' ≤ c ∧ c ≤ 'F' then some (c.toNat - 'A'.toNat + 10)
    else none
  n.filter (· < base)

/-- The number that the digits write after `high` has been read. -/
def ofDigitsAfter? (base : Nat) (high : Nat) : Text → Option Nat
  | [] => some high
  | c :: rest => do ofDigitsAfter? base (base * high + (← digit? base c)) rest

/-- The number that one or more digits write. -/
def ofDigits? (base : Nat) (text : Text) : Option Nat :=
  if text.isEmpty then none else ofDigitsAfter? base 0 text

/-- The number that a text of one optional sign and one or more digits writes. -/
def unbounded? (base : Nat) : Text → Option Int
  | '-' :: digits => (ofDigits? base digits).map fun n => -(n : Int)
  | '+' :: digits => (ofDigits? base digits).map Int.ofNat
  | digits => (ofDigits? base digits).map Int.ofNat

/-- The same, if the number is in range. -/
def ofSigned? (base : Nat) (text : Text) : Option Int :=
  (unbounded? base text).filter fun v => least ≤ v ∧ v ≤ greatest

/-- The value of a decimal literal. -/
def decimal? (text : Text) : Option Int := ofSigned? 10 text

/-- The negative of a value.  That of the least value is one above the greatest, and wraps
around to the least value again; a build that checks its arithmetic stops there instead. -/
def negate (v : Int) : Int := if v = least then least else -v

/-- The value of hexadecimal text, every `$` left out.  A first `-` negates what
follows, which may have a sign of its own. -/
def hex (text : Text) : Int :=
  match (Text.trim text).filter (· ≠ '$') with
  | '-' :: digits => negate ((ofSigned? 16 digits).getD 0)
  | digits => (ofSigned? 16 digits).getD 0

/-- The value of a literal: hexadecimal if it has a `$`, decimal otherwise. -/
def value (text : Text) : Int :=
  let literal := Text.trim text
  if '$' ∈ literal then hex literal else (decimal? literal).getD 0

variable {base : Nat} {text : Text} {v : Int}

theorem ofSigned?_range (h : ofSigned? base text = some v) : least ≤ v ∧ v ≤ greatest := by
  simpa using (Option.filter_eq_some_iff.1 h).2

theorem zero_range : least ≤ 0 ∧ 0 ≤ greatest := by decide

theorem getD_ofSigned?_range (base : Nat) (text : Text) :
    least ≤ (ofSigned? base text).getD 0 ∧ (ofSigned? base text).getD 0 ≤ greatest := by
  cases h : ofSigned? base text with
  | none => exact zero_range
  | some v => exact ofSigned?_range h

@[simp] theorem negate_zero : negate 0 = 0 := by decide

/-- The negative is exact unless it overflows. -/
theorem negate_of_ne (h : v ≠ least) : negate v = -v := if_neg h

theorem negate_range (h : least ≤ v ∧ v ≤ greatest) :
    least ≤ negate v ∧ negate v ≤ greatest := by
  rw [negate]
  split
  · decide
  · rw [least, greatest] at *
    omega

theorem hex_range (text : Text) : least ≤ hex text ∧ hex text ≤ greatest := by
  rw [hex]
  split
  · exact negate_range (getD_ofSigned?_range 16 _)
  · exact getD_ofSigned?_range 16 _

/-- The value of a text is a signed integer of 64 bits. -/
theorem value_range (text : Text) : least ≤ value text ∧ value text ≤ greatest := by
  rw [value]
  split
  · exact hex_range _
  · exact getD_ofSigned?_range 10 _

end AsmCatalog.Literal
