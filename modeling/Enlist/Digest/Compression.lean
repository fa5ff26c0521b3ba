/-!
# The BLAKE3 compression function

Sixteen words of state are mixed with sixteen words of message in seven rounds; between rounds the
words of the message change places. The first half of the state, combined with the second, is the
chaining value of the block.
-/

namespace Enlist.Digest

/-- The first eight words of state when nothing was hashed before. -/
def initialWords : Vector UInt32 8 :=
  #v[0x6a09e667, 0xbb67ae85, 0x3c6ef372, 0xa54ff53a, 0x510e527f, 0x9b05688c, 0x1f83d9ab, 0x5be0cd19]

/-- Where each word of the message comes from in the next round. -/
def messageOrder : Vector (Fin 16) 16 :=
  #v[2, 6, 3, 10, 7, 0, 4, 13, 1, 11, 12, 5, 9, 14, 15, 8]

/-- Turns a word by `n` bits to the right. -/
def rotateRight (w : UInt32) (n : UInt32) : UInt32 :=
  (w >>> n) ||| (w <<< (32 - n))

/-- Mixes two words of message into four words of state. -/
def mix (v : Vector UInt32 16) (a b c d : Fin 16) (x y : UInt32) : Vector UInt32 16 :=
  let wa := v[a] + v[b] + x
  let wd := rotateRight (v[d] ^^^ wa) 16
  let wc := v[c] + wd
  let wb := rotateRight (v[b] ^^^ wc) 12
  let wa := wa + wb + y
  let wd := rotateRight (wd ^^^ wa) 8
  let wc := wc + wd
  let wb := rotateRight (wb ^^^ wc) 7
  (((v.set a wa).set b wb).set c wc).set d wd

/-- One round: first the columns of the state, then its diagonals. -/
def round (v m : Vector UInt32 16) : Vector UInt32 16 :=
  let v := mix v 0 4 8 12 m[0] m[1]
  let v := mix v 1 5 9 13 m[2] m[3]
  let v := mix v 2 6 10 14 m[4] m[5]
  let v := mix v 3 7 11 15 m[6] m[7]
  let v := mix v 0 5 10 15 m[8] m[9]
  let v := mix v 1 6 11 12 m[10] m[11]
  let v := mix v 2 7 8 13 m[12] m[13]
  mix v 3 4 9 14 m[14] m[15]

/-- Rounds with the message in its changing order. -/
def rounds : Nat → Vector UInt32 16 → Vector UInt32 16 → Vector UInt32 16
  | 0, v, _ => v
  | n + 1, v, m => rounds n (round v m) (messageOrder.map fun i => m[i])

/-- What one block adds to a chaining value. -/
structure Block where
  chaining : Vector UInt32 8
  words : Vector UInt32 16
  counter : UInt64
  /-- The number of bytes of the block that are message. -/
  length : UInt32
  flags : UInt32

/-- The eight words that a block comes to. -/
def Block.compress (b : Block) : Vector UInt32 8 :=
  let h := b.chaining
  let v := rounds 7
    #v[h[0], h[1], h[2], h[3], h[4], h[5], h[6], h[7],
      initialWords[0], initialWords[1], initialWords[2], initialWords[3],
      b.counter.toUInt32, (b.counter >>> 32).toUInt32, b.length, b.flags] b.words
  #v[v[0] ^^^ v[8], v[1] ^^^ v[9], v[2] ^^^ v[10], v[3] ^^^ v[11],
    v[4] ^^^ v[12], v[5] ^^^ v[13], v[6] ^^^ v[14], v[7] ^^^ v[15]]

end Enlist.Digest
