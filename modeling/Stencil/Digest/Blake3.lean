/-!
# BLAKE3

The BLAKE3 digest of a list of bytes. The input is cut into chunks of 1024 bytes, each chunk into
blocks of 64 bytes, and the chunks are the leaves of a binary tree in which every left subtree
holds a power of two of them.
-/

namespace Stencil.Digest.Blake3

/-- A chaining value. -/
abbrev Chain := Vector UInt32 8

/-- Sixteen words: a block of the message, or the state of the compression. -/
abbrev Words := Vector UInt32 16

/-- The initial chaining value. -/
def iv : Chain :=
  #v[0x6a09e667, 0xbb67ae85, 0x3c6ef372, 0xa54ff53a, 0x510e527f, 0x9b05688c, 0x1f83d9ab, 0x5be0cd19]

/-- How the message words are permuted between rounds. -/
def permutation : Vector (Fin 16) 16 :=
  #v[2, 6, 3, 10, 7, 0, 4, 13, 1, 11, 12, 5, 9, 14, 15, 8]

/-- Rotates a word to the right. -/
def rotate (w : UInt32) (n : UInt32) : UInt32 := (w >>> n) ||| (w <<< (32 - n))

/-- Mixes two message words into four words of the state. -/
def mix (s : Words) (a b c d : Fin 16) (x y : UInt32) : Words :=
  let s := s.set a (s[a] + s[b] + x)
  let s := s.set d (rotate (s[d] ^^^ s[a]) 16)
  let s := s.set c (s[c] + s[d])
  let s := s.set b (rotate (s[b] ^^^ s[c]) 12)
  let s := s.set a (s[a] + s[b] + y)
  let s := s.set d (rotate (s[d] ^^^ s[a]) 8)
  let s := s.set c (s[c] + s[d])
  s.set b (rotate (s[b] ^^^ s[c]) 7)

/-- One round: the columns of the state, then its diagonals. -/
def round (s m : Words) : Words :=
  let s := mix s 0 4 8 12 m[0] m[1]
  let s := mix s 1 5 9 13 m[2] m[3]
  let s := mix s 2 6 10 14 m[4] m[5]
  let s := mix s 3 7 11 15 m[6] m[7]
  let s := mix s 0 5 10 15 m[8] m[9]
  let s := mix s 1 6 11 12 m[10] m[11]
  let s := mix s 2 7 8 13 m[12] m[13]
  mix s 3 4 9 14 m[14] m[15]

/-- Permutes the message words. -/
def permute (m : Words) : Words := permutation.map fun i => m[i]

/-- Runs rounds, permuting the message words between them. -/
def rounds : Nat → Words → Words → Words
  | 0, s, _ => s
  | n + 1, s, m => rounds n (round s m) (permute m)

/-- One application of the compression function, before its output is taken. -/
structure Compression where
  chain : Chain
  block : Words
  counter : Nat
  length : Nat
  flags : UInt32

namespace Compression

/-- The state after all rounds. -/
def run (c : Compression) : Words :=
  let start : Words :=
    #v[c.chain[0], c.chain[1], c.chain[2], c.chain[3],
      c.chain[4], c.chain[5], c.chain[6], c.chain[7],
      iv[0], iv[1], iv[2], iv[3],
      UInt32.ofNat c.counter, UInt32.ofNat (c.counter / UInt32.size), UInt32.ofNat c.length, c.flags]
  rounds 7 start c.block

/-- The chaining value that the compression leaves: the two halves of the state, joined. -/
def output (c : Compression) : Chain :=
  let s := c.run
  #v[s[0] ^^^ s[8], s[1] ^^^ s[9], s[2] ^^^ s[10], s[3] ^^^ s[11],
    s[4] ^^^ s[12], s[5] ^^^ s[13], s[6] ^^^ s[14], s[7] ^^^ s[15]]

end Compression

/-- Marks the first block of a chunk. -/
def chunkStart : UInt32 := 1

/-- Marks the last block of a chunk. -/
def chunkEnd : UInt32 := 2

/-- Marks an inner node of the tree. -/
def parentNode : UInt32 := 4

/-- Marks the root of the tree. -/
def rootNode : UInt32 := 8

/-- The little-endian word at a position of a list of bytes; missing bytes count as zero. -/
def word (bytes : List UInt8) (i : Nat) : UInt32 :=
  let byte := fun k : Nat => ((bytes.drop (4 * i + k)).headD 0).toUInt32
  byte 0 ||| (byte 1 <<< 8) ||| (byte 2 <<< 16) ||| (byte 3 <<< 24)

/-- The words of a block, filled up with zeros. -/
def words (bytes : List UInt8) : Words := Vector.ofFn fun i => word bytes i

/-- The last compression of a chunk whose remaining bytes are given. The number of blocks still
allowed bounds the recursion. -/
def blocks (index : Nat) : Nat → UInt32 → Chain → List UInt8 → Compression
  | 0, flags, chain, bytes => ⟨chain, words bytes, index, bytes.length, flags ||| chunkEnd⟩
  | n + 1, flags, chain, bytes =>
    if bytes.length ≤ 64 then ⟨chain, words bytes, index, bytes.length, flags ||| chunkEnd⟩
    else
      let block : Compression := ⟨chain, words (bytes.take 64), index, 64, flags⟩
      blocks index n 0 block.output (bytes.drop 64)

/-- The last compression of a chunk. -/
def chunk (index : Nat) (bytes : List UInt8) : Compression := blocks index 15 chunkStart iv bytes

/-- The compression of an inner node. -/
def parent (left right : Chain) : Compression :=
  ⟨iv, left ++ right, 0, 64, parentNode⟩

/-- The last compression of a tree of at most `2 ^ height` chunks. -/
def tree : Nat → Nat → List UInt8 → Compression
  | 0, index, bytes => chunk index bytes
  | height + 1, index, bytes =>
    let half := 1024 * Nat.pow 2 height
    if bytes.length ≤ half then tree height index bytes
    else
      parent (tree height index (bytes.take half)).output
        (tree height (index + Nat.pow 2 height) (bytes.drop half)).output

/-- The four bytes of a word, the lowest first. -/
def bytesOfWord (w : UInt32) : List UInt8 :=
  [w.toUInt8, (w >>> 8).toUInt8, (w >>> 16).toUInt8, (w >>> 24).toUInt8]

/-- The 32 bytes of the digest. -/
def hash (bytes : List UInt8) : List UInt8 :=
  let height := if bytes.length ≤ 1024 then 0 else (bytes.length / 1024).log2 + 1
  let root := tree height 0 bytes
  { root with flags := root.flags ||| rootNode }.output.toList.flatMap bytesOfWord

end Stencil.Digest.Blake3
