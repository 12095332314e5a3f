/-!
# CodeGuard.Hex

Numbers in base sixteen, at least `width` digits wide.
-/

namespace CodeGuard
namespace Hex

/-- Zeros in front up to `width`; a longer text stays whole. -/
def pad (width : Nat) (digits : List Char) : String :=
  String.ofList (List.replicate (width - digits.length) '0' ++ digits)

/-- Small letters: `lower 8 255` is `000000ff`. -/
def lower (width n : Nat) : String :=
  pad width (Nat.toDigits 16 n)

/-- Capital letters: `upper 4 255` is `00FF`. -/
def upper (width n : Nat) : String :=
  pad width ((Nat.toDigits 16 n).map Char.toUpper)

def bytes (data : List UInt8) : String :=
  String.join (data.map fun b => lower 2 b.toNat)

end Hex
end CodeGuard
