namespace LateBinding

namespace Text

/-- What an address begins with. -/
def addressMark : List Char := [' ', 'a', 't', ' ', '0', 'x']

/-- What stands for the digits of an address that is hidden. -/
def hiddenDigits : List Char := ['A', 'D', 'D', 'R']

/-- The character is a hexadecimal digit, of either case. -/
def isHexDigit (c : Char) : Bool :=
  c.isDigit || ('a' ≤ c && c ≤ 'f') || ('A' ≤ c && c ≤ 'F')

/-- The characters of an address. -/
def address (n : Nat) : List Char := addressMark ++ Nat.toDigits 16 n

/-- The characters with the digits of every address hidden. An address without digits is one. -/
def hide : List Char → List Char
  | [] => []
  | ' ' :: 'a' :: 't' :: ' ' :: '0' :: 'x' :: cs =>
    addressMark ++ hiddenDigits ++ hide (cs.dropWhile isHexDigit)
  | c :: cs => c :: hide cs
termination_by cs => cs.length
decreasing_by
  · have hle := (List.dropWhile_sublist isHexDigit (l := cs)).length_le
    simp only [List.length_cons]
    omega
  · simp

/-- A text with the digits of every address hidden. -/
def hideAddresses (s : String) : String := String.ofList (hide s.toList)

end Text

end LateBinding
