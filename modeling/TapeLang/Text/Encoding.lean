import TapeLang.Text

/-! Texts as bytes.

Names of files are bytes. A character is written as its bytes in UTF-8. Bytes that are no UTF-8 are
read as the surrogates from U+DC80 to U+DCFF, which are therefore written as the byte they stand
for; the other surrogates cannot be written. Every row of bytes can be read, and two texts may be
written in the same way. -/
namespace TapeLang.Encoding

/-- How far the surrogate that stands for a byte is from the first surrogate, less the byte. -/
def byteHalves : Nat := 0x400

def bytesOf? : CodePoint → Option (List UInt8)
  | .char c => some (String.utf8EncodeChar c)
  | .half h =>
    if byteHalves + 0x80 ≤ h ∧ h < byteHalves + 0x100 then some [.ofNat (h - byteHalves)] else none

def bytes? : Text → Option (List UInt8)
  | [] => some []
  | c :: text => do
    let front ← bytesOf? c
    let rest ← bytes? text
    return front ++ rest

/-- The character that some bytes begin with, if what they begin with is one. Its number is made of
the low bits of the first byte, which tells how many bytes there are, and six bits of each byte that
follows. -/
def candidate : List UInt8 → Char
  | [] => .ofNat 0
  | first :: rest =>
    let first := first.toNat
    let number := fun (count high : Nat) =>
      (rest.take count).foldl (fun n b => 64 * n + b.toNat % 64) high
    .ofNat
      (if first < 0x80 then first
      else if first < 0xe0 then number 1 (first % 32)
      else if first < 0xf0 then number 2 (first % 16)
      else number 3 (first % 8))

/-- The character whose bytes stand in front. -/
def leading? (bytes : List UInt8) : Option Char :=
  let c := candidate bytes
  if (String.utf8EncodeChar c).isPrefixOf bytes then some c else none

def ofBytes : List UInt8 → Text
  | [] => []
  | first :: rest =>
    match leading? (first :: rest) with
    | some c => .char c :: ofBytes (rest.drop (c.utf8Size - 1))
    | none => .half (.ofNat 2048 (byteHalves + first.toNat)) :: ofBytes rest
termination_by bytes => bytes.length
decreasing_by all_goals simp only [List.length_drop, List.length_cons]; omega

end TapeLang.Encoding
