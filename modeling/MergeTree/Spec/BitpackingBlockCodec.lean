import MergeTree.Lib.Codec

/-!
# Bit packing in blocks

`BitpackingBlockCodecImpl<false>` packs 32-bit values in a fixed number of bits each. Four
values are a group; value `k` of every group goes to lane `k`, and the lanes are written as
32-bit words, one word of each lane after the other. 128 values are a block, what is left
is the tail. With 32 bits the values are copied.

`memcpy` copies words with the lowest byte first. Reading past the end of the input is an
error of the `Reader`.
-/

namespace MergeTree

namespace BitpackingBlockCodec

def blockSize : ℕ := 128

/-- `memcpy` of 32-bit words into bytes. -/
def copyWords (words : List ℕ) : List UInt8 := words.flatMap (writeLittleEndian 4)

/-- `memcpy` of so many 32-bit words out of bytes. -/
def readWords (n : ℕ) : Reader (List ℕ) := Reader.each (fun _ => readLittleEndian 4) (List.range n)

/-- `__builtin_clz` of a 32-bit number that is not zero. -/
def builtinClz (x : ℕ) : ℕ := 31 - x.log2

def maxbitsLength (input : List ℕ) : ℕ :=
  let n := input.length
  let value k := input.getD k 0
  let offset := n / 4 * 4
  let xoredIn := (List.range (n / 4)).foldl
    (fun x k => x ||| value (4 * k) ||| value (4 * k + 1) ||| value (4 * k + 2) ||| value (4 * k + 3)) 0
  let xoredIn := (List.range' offset (n - offset)).foldl (fun x k => x ||| value k) xoredIn
  if xoredIn = 0 then 0 else 32 - builtinClz xoredIn

def bitpackingCompressedBytes (count bits : ℕ) : ℕ :=
  if bits = 0 then 0
  else if bits = 32 then count * 4
  else
    let groups := (count + 3) / 4
    let words32 := (groups * bits + 31) / 32
    words32 * 16

def calculateNeededBytesAndMaxBits (data : List ℕ) : ℕ × ℕ :=
  let bits := maxbitsLength data
  (bitpackingCompressedBytes data.length bits, bits)

def maskForBits (bits : ℕ) : ℕ := if bits = 32 then 0xFFFFFFFF else if bits = 0 then 0 else 1 <<< bits - 1

/-- The accumulators of the four lanes, and how many bits each of them holds. -/
structure Lanes where
  acc : Fin 4 → ℕ := fun _ => 0
  accBits : ℕ := 0

namespace Lanes

/-- Appends the bits of a group. -/
def append (bits : ℕ) (L : Lanes) (group : Fin 4 → ℕ) : Lanes where
  acc k := L.acc k ||| ((group k &&& maskForBits bits) <<< L.accBits) % 2 ^ 64
  accBits := L.accBits + bits

/-- The lowest word of each lane. -/
def words (L : Lanes) : List ℕ := (List.finRange 4).map fun k => L.acc k % 2 ^ 32

/-- Drops the words that were written. -/
def dropWords (L : Lanes) : Lanes where
  acc k := L.acc k >>> 32
  accBits := L.accBits - 32

/-- Puts the words that were read above the bits. -/
def refill (L : Lanes) (tmp : List ℕ) : Lanes where
  acc k := L.acc k ||| (tmp.getD k 0 <<< L.accBits) % 2 ^ 64
  accBits := L.accBits + 32

/-- The group in the lowest bits. -/
def group (bits : ℕ) (L : Lanes) : Fin 4 → ℕ := fun k => (L.acc k % 2 ^ 32) &&& maskForBits bits

/-- Drops the bits of the group. -/
def consume (bits : ℕ) (L : Lanes) : Lanes where
  acc k := L.acc k >>> bits
  accBits := L.accBits - bits

end Lanes

/-! ## Packing -/

/-- Appends a group and writes a word of each lane when there is one. -/
def packGroup (bits : ℕ) (s : Lanes × List UInt8) (group : Fin 4 → ℕ) : Lanes × List UInt8 :=
  let L := s.1.append bits group
  if 32 ≤ L.accBits then (L.dropWords, s.2 ++ copyWords L.words) else (L, s.2)

/-- Writes the last word of each lane, if any bits are left. -/
def packRest (s : Lanes × List UInt8) : List UInt8 := if s.1.accBits ≠ 0 then s.2 ++ copyWords s.1.words else s.2

/-- Group `i` of the input. -/
def inputGroup (input : List ℕ) (i : ℕ) : Fin 4 → ℕ := fun k => input.getD (4 * i + k) 0

/-- `packFixed<bits>`. -/
def packFixed (bits : ℕ) (input : List ℕ) (groups : ℕ) : List UInt8 :=
  if bits = 0 then []
  else if groups = 0 then []
  else if bits = 32 then copyWords (input.take (groups * 4))
  else packRest ((List.range groups).foldl (fun s i => packGroup bits s (inputGroup input i)) ({}, []))

/-- `packTail<bits>`. A partial last group is padded with zeros. -/
def packTail (bits : ℕ) (input : List ℕ) (tail : ℕ) : List UInt8 :=
  if tail = 0 then []
  else if bits = 0 then []
  else if bits = 32 then copyWords (input.take tail)
  else
    let fullGroups := tail / 4
    let rem := tail % 4
    let s := (List.range fullGroups).foldl (fun s i => packGroup bits s (inputGroup input i)) ({}, [])
    let s := if rem ≠ 0 then packGroup bits s fun k => if k < rem then inputGroup input fullGroups k else 0 else s
    packRest s

/-- The blocks of `packingLength`. -/
def packBlocks (bits : ℕ) : ℕ → List ℕ → List UInt8
  | 0, _ => []
  | blocks + 1, input => packFixed bits input 32 ++ packBlocks bits blocks (input.drop blockSize)

def packingLength (input : List ℕ) (length bits : ℕ) : List UInt8 :=
  let blocks := length / blockSize
  let tail := length % blockSize
  let out := packBlocks bits blocks input
  if tail = 0 then out else out ++ packTail bits (input.drop (blocks * blockSize)) tail

/-- The exception on a width. -/
def invalidBitWidth (maxBits : ℕ) : String := "Invalid bit width " ++ toString maxBits ++ " bits must be in [0, 32]."

/-- `encode`: the bytes that are written. -/
def encode (input : List ℕ) (maxBits : ℕ) : Except String (List UInt8) :=
  if 32 < maxBits then .error (invalidBitWidth maxBits) else .ok (packingLength input input.length maxBits)

/-! ## Unpacking -/

/-- Writes the first `n` values of a group to the output array. -/
def writeGroup (out : List ℕ) (base n : ℕ) (group : Fin 4 → ℕ) : List ℕ :=
  (List.finRange 4).foldl (fun out (k : Fin 4) => if k.val < n then out.set (base + k.val) (group k) else out) out

/-- The state of `unpackFixed`. -/
structure Unpacker where
  lanes : Lanes := {}
  producedGroups : ℕ := 0
  out : List ℕ

/-- The loop of `unpackFixed`: each time around refills the lanes or produces a group. -/
def unpackFixedLoop (bits groups : ℕ) : ℕ → Unpacker → Reader Unpacker
  | 0, _ => throw "the loop did not end"
  | fuel + 1, s =>
    if groups ≤ s.producedGroups then return s
    else if s.lanes.accBits < bits then do
      let tmp ← readWords 4
      unpackFixedLoop bits groups fuel { s with lanes := s.lanes.refill tmp }
    else
      unpackFixedLoop bits groups fuel {
        lanes := s.lanes.consume bits
        producedGroups := s.producedGroups + 1
        out := writeGroup s.out (4 * s.producedGroups) 4 (s.lanes.group bits) }

/-- Writes words over the first values of the output array. -/
def copyOut (words out : List ℕ) : List ℕ := words ++ out.drop words.length

/-- `unpackFixed<bits>`. The loop goes around at most twice for each group. -/
def unpackFixed (bits groups : ℕ) (out : List ℕ) : Reader (List ℕ) :=
  if groups = 0 then return out
  else if bits = 0 then return out
  else if bits = 32 then do
    let words ← readWords (groups * 4)
    return copyOut words out
  else do
    let s ← unpackFixedLoop bits groups (2 * groups + 1) { out := out }
    return s.out

/-- One group of `unpackTail`. -/
def unpackTailGroup (bits fullGroups rem : ℕ) (s : Lanes × List ℕ) (g : ℕ) : Reader (Lanes × List ℕ) := do
  let L ←
    if s.1.accBits < bits then do
      let tmp ← readWords 4
      pure (s.1.refill tmp)
    else pure s.1
  let out :=
    if g < fullGroups then writeGroup s.2 (4 * g) 4 (L.group bits)
    else if rem ≠ 0 then writeGroup s.2 (4 * g) rem (L.group bits)
    else s.2
  return (L.consume bits, out)

/-- `unpackTail<bits>`. -/
def unpackTail (bits tail : ℕ) (out : List ℕ) : Reader (List ℕ) :=
  if tail = 0 then return out
  else if bits = 0 then return out
  else if bits = 32 then do
    let words ← readWords tail
    return copyOut words out
  else do
    let groups := (tail + 3) / 4
    let s ← (List.range groups).foldlM (unpackTailGroup bits (tail / 4) (tail % 4)) ({}, out)
    return s.2

/-- Lets an unpacker write at an offset of the output array. -/
def unpackAt (offset : ℕ) (out : List ℕ) (unpack : List ℕ → Reader (List ℕ)) : Reader (List ℕ) := do
  let written ← unpack (out.drop offset)
  return out.take offset ++ written

def unpackingLength (length bits : ℕ) (out : List ℕ) : Reader (List ℕ) := do
  let blocks := length / blockSize
  let tail := length % blockSize
  let out ← (List.range blocks).foldlM (fun out i => unpackAt (i * blockSize) out (unpackFixed bits 32)) out
  if tail = 0 then return out else unpackAt (blocks * blockSize) out (unpackTail bits tail)

/-- `decode`: how many bytes were read, and the output array. -/
def decode (n maxBits : ℕ) (out : List ℕ) : Reader (ℕ × List ℕ) := fun buffer =>
  if 32 < maxBits then .error (invalidBitWidth maxBits)
  else
    match unpackingLength n maxBits out buffer with
    | .ok (out, rest) => .ok ((buffer.length - rest.length, out), rest)
    | .error e => .error e

end BitpackingBlockCodec

end MergeTree
