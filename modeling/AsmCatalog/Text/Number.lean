/-
Numbers as text.

Main definitions:
* `Text.ofNat`, `Text.ofInt` — decimal digits, with a `-` for negative numbers;
* `Text.ofNatHex` — hexadecimal digits with capital letters;
* `Text.padLeft`, `Text.padRight` — a text filled up to a width.
-/
import AsmCatalog.Text.Basic

namespace AsmCatalog.Text

/-- A number in decimal. -/
def ofNat (n : Nat) : Text := Nat.toDigits 10 n

/-- An integer in decimal. -/
def ofInt : Int → Text
  | .ofNat n => ofNat n
  | .negSucc n => '-' :: ofNat (n + 1)

/-- A number in hexadecimal. -/
def ofNatHex (n : Nat) : Text := (Nat.toDigits 16 n).map Char.toUpper

/-- A text with `fill` before it up to a width. -/
def padLeft (fill : Char) (width : Nat) (text : Text) : Text :=
  List.replicate (width - text.length) fill ++ text

/-- A text with `fill` behind it up to a width. -/
def padRight (fill : Char) (width : Nat) (text : Text) : Text :=
  text ++ List.replicate (width - text.length) fill

end AsmCatalog.Text
