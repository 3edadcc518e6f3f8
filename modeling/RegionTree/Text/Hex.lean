/-! Lowercase hexadecimal text. -/
namespace RegionTree.Hex

def digits (n : Nat) : String := String.ofList (Nat.toDigits 16 n)

def padded (width n : Nat) : String :=
  let text := Nat.toDigits 16 n
  String.ofList (List.replicate (width - text.length) '0' ++ text)

def short (n : Nat) : String := "0x" ++ digits n

end RegionTree.Hex
