import Enlist.Digest.Compression

/-!
# The BLAKE3 hash of a list of bytes

The bytes are cut into chunks of 1024, and the chunks are the leaves of a binary tree whose left
branches are as large and as full as possible. A chunk is hashed in blocks of 64 bytes, one after the
other. The last block of all, which is that of the only chunk or of the root, is marked as the root.
-/

namespace Enlist.Digest

/-- The first block of a chunk. -/
def chunkStart : UInt32 := 1

/-- The last block of a chunk. -/
def chunkEnd : UInt32 := 2

/-- A block that holds the chaining values of two branches. -/
def parentFlag : UInt32 := 4

/-- The last block of all. -/
def rootFlag : UInt32 := 8

/-- Four bytes as a word, the low byte first; missing bytes are zero. -/
def wordOfBytes (bytes : List UInt8) : UInt32 :=
  bytes.foldr (fun b w => (w <<< 8) ||| b.toUInt32) 0

/-- Sixteen words of at most 64 bytes. -/
def wordsOfBytes (bytes : List UInt8) : Vector UInt32 16 :=
  Vector.ofFn fun i => wordOfBytes ((bytes.drop (4 * i.val)).take 4)

/-- The last block of a chunk of at most `n + 1` blocks, with those before it compressed. -/
def chunkBlock (counter : UInt64) : Nat → UInt32 → Vector UInt32 8 → List UInt8 → Block
  | n + 1, start, chaining, bytes =>
    if bytes.length ≤ 64 then last start chaining bytes
    else
      let block : Block := ⟨chaining, wordsOfBytes (bytes.take 64), counter, 64, start⟩
      chunkBlock counter n 0 block.compress (bytes.drop 64)
  | 0, start, chaining, bytes => last start chaining bytes
where
  /-- The block that closes the chunk. -/
  last (start : UInt32) (chaining : Vector UInt32 8) (bytes : List UInt8) : Block :=
    ⟨chaining, wordsOfBytes bytes, counter, bytes.length.toUInt32, start ||| chunkEnd⟩

/-- The number of bytes in the left branch of a tree over `n` bytes, more than one chunk: the largest
power of two of whole chunks that leaves something for the right branch. -/
def leftLength (n : Nat) : Nat :=
  1024 * Nat.pow 2 ((n - 1) / 1024).log2

/-- The last block of a tree of at most `depth` levels over some bytes, whose first chunk has the
number `counter`. -/
def treeBlock : Nat → UInt64 → List UInt8 → Block
  | depth + 1, counter, bytes =>
    if bytes.length ≤ 1024 then chunkBlock counter 15 chunkStart initialWords bytes
    else
      let n := leftLength bytes.length
      let left := (treeBlock depth counter (bytes.take n)).compress
      let right := (treeBlock depth (counter + (n / 1024).toUInt64) (bytes.drop n)).compress
      ⟨initialWords, left ++ right, 0, 64, parentFlag⟩
  | 0, counter, bytes => chunkBlock counter 15 chunkStart initialWords bytes

/-- The hash of some bytes, as eight words. -/
def blake3 (bytes : List UInt8) : Vector UInt32 8 :=
  let block := treeBlock (bytes.length.log2 + 1) 0 bytes
  { block with counter := 0, flags := block.flags ||| rootFlag }.compress

end Enlist.Digest
