import Enlist.Digest.Blake3

/-!
# Content digests

A digest stands for the exact content of a file. Two writers who saw the same digest saw the same
content.
-/

namespace Enlist

/-- The BLAKE3 hash of some content. -/
structure Digest where
  words : Vector UInt32 8
  deriving DecidableEq

namespace Digest

def ofBytes (bytes : ByteArray) : Digest :=
  ⟨blake3 bytes.data.toList⟩

/-- The digest of a text, which is that of its UTF-8 form. -/
def ofText (text : String) : Digest :=
  ofBytes text.toUTF8

/-- The digits of a hexadecimal number, for values below sixteen. -/
def hexDigit (n : UInt32) : Char :=
  if n < 10 then Char.ofNat (48 + n.toNat) else Char.ofNat (87 + n.toNat)

/-- The hexadecimal digits of a word, byte by byte, the low byte first. -/
def hexOfWord (w : UInt32) : List Char :=
  [0, 8, 16, 24].flatMap fun (shift : UInt32) =>
    [hexDigit ((w >>> (shift + 4)) &&& 15), hexDigit ((w >>> shift) &&& 15)]

/-- The first sixteen hexadecimal digits, by which people tell digests apart. -/
def short (d : Digest) : String :=
  String.ofList (hexOfWord (d.words.get 0) ++ hexOfWord (d.words.get 1))

end Digest

end Enlist
