/-!
# Hexadecimal text

Numbers in base 16 as diagnostics show them: a sign where there is one, and zeros
in front up to a least width that counts the sign.
-/

namespace ActionCode.Hex

/-- The digit of a value below 16, in lower case. -/
def digit (n : Nat) : Char := Nat.digitChar (n % 16)

/-- The two digits of a byte. -/
def ofByte (b : UInt8) : List Char := [digit (b.toNat / 16), digit b.toNat]

/-- A run of bytes, two digits each. -/
def ofBytes (bytes : List UInt8) : String := String.ofList (bytes.flatMap ofByte)

/-- The digits of a number in base 16, in lower case. -/
def lower (n : Int) : String :=
  let digits := String.ofList (Nat.toDigits 16 n.natAbs)
  if n < 0 then "-" ++ digits else digits

/-- The digits of a number in base 16, in upper case. -/
def upper (n : Int) : String := (lower n).map Char.toUpper

/-- Puts zeros between the sign and the digits until the text has two characters. -/
def padded (text : String) : String :=
  if text.length < 2 then "0" ++ text else text

end ActionCode.Hex
