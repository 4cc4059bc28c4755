import Systrix.Lib.CanonicalCode

/-!
# The DEFLATE format

Compressed streams of RFC 1951 as relations between bit strings and the bytes
they stand for.  The relations say which streams are well formed; how a decoder
finds its way through one is not their concern.
-/

namespace Deflate

open BitString CanonicalCode

/-- Longest code word. -/
def maxBits : Nat := 15

/-! ## Alphabets -/

/-- Extra bits of length symbol `257 + index`. -/
def lengthExtra (index : Nat) : Nat := if index < 8 ∨ index = 28 then 0 else index / 4 - 1

/-- Shortest match of length symbol `257 + index`. -/
def lengthBase (index : Nat) : Nat :=
  if index < 8 then index + 3
  else if index = 28 then 258
  else (4 + index % 4) * 2 ^ lengthExtra index + 3

/-- Extra bits of a distance symbol. -/
def distanceExtra (sym : Nat) : Nat := if sym < 2 then 0 else sym / 2 - 1

/-- Shortest distance of a distance symbol. -/
def distanceBase (sym : Nat) : Nat :=
  if sym < 2 then sym + 1 else (2 + sym % 2) * 2 ^ distanceExtra sym + 1

/-- Code lengths of literals and lengths in fixed blocks. -/
def fixedLiterals : List Nat :=
  List.replicate 144 8 ++ List.replicate 112 9 ++ List.replicate 24 7 ++ List.replicate 8 8

/-- Code lengths of distances in fixed blocks. -/
def fixedDistances : List Nat := List.replicate 32 5

/-! ## Compressed data -/

/-- Append `length` bytes, each from `distance` bytes before the end. -/
def copyBack (out : List UInt8) (distance : Nat) : (length : Nat) → List UInt8
  | 0 => out
  | length + 1 =>
      let out := copyBack out distance length
      out ++ [out.getD (out.length - distance) 0]

/-- The symbols of a block up to its end: from `bits` and the bytes produced so
far to the rest of the bits and the bytes produced then. -/
inductive Symbols (literals distances : List Nat) :
    (bits : Bits) → (out : List UInt8) → (rest : Bits) → (out' : List UInt8) → Prop
  | endOfBlock {word rest : Bits} {out : List UInt8} (codeword : Codeword literals 256 word) :
      Symbols literals distances (word ++ rest) out rest out
  | literal {word bits rest : Bits} {out out' : List UInt8} {byte : UInt8}
      (codeword : Codeword literals byte.toNat word)
      (next : Symbols literals distances bits (out ++ [byte]) rest out') :
      Symbols literals distances (word ++ bits) out rest out'
  | copy {word extra word' extra' bits rest : Bits} {out out' : List UInt8} {index sym : Nat}
      (isLength : index < 29) (codeword : Codeword literals (257 + index) word)
      (extraLength : extra.length = lengthExtra index)
      (isDistance : sym < 30) (codeword' : Codeword distances sym word')
      (extraLength' : extra'.length = distanceExtra sym)
      (within : distanceBase sym + lsbValue extra' ≤ out.length)
      (next : Symbols literals distances bits
        (copyBack out (distanceBase sym + lsbValue extra') (lengthBase index + lsbValue extra))
        rest out') :
      Symbols literals distances (word ++ (extra ++ (word' ++ (extra' ++ bits)))) out rest out'

/-! ## Dynamic codes -/

/-- Order in which the lengths of the code length code are sent. -/
def codeLengthOrder : List Nat :=
  [16, 17, 18, 0, 8, 7, 9, 6, 10, 5, 11, 4, 12, 3, 13, 2, 14, 1, 15]

/-- Lengths of the code length code in symbol order; those not sent are zero. -/
def arrange (sent : List Nat) : List Nat :=
  (List.range 19).map fun sym => sent.getD (codeLengthOrder.idxOf sym) 0

/-- Run-length coded code lengths: from the lengths known so far to all `total`
of them. -/
inductive CodeLengths (code : List Nat) (total : Nat) :
    (bits : Bits) → (known : List Nat) → (rest : Bits) → (lengths : List Nat) → Prop
  | complete {rest : Bits} {known : List Nat} (full : known.length = total) :
      CodeLengths code total rest known rest known
  | single {word bits rest : Bits} {known lengths : List Nat} {len : Nat} (small : len < 16)
      (room : known.length < total) (codeword : Codeword code len word)
      (next : CodeLengths code total bits (known ++ [len]) rest lengths) :
      CodeLengths code total (word ++ bits) known rest lengths
  | copyPrevious {word extra bits rest : Bits} {known lengths : List Nat} {previous : Nat}
      (codeword : Codeword code 16 word) (extraLength : extra.length = 2)
      (last : known.getLast? = some previous)
      (room : known.length + (3 + lsbValue extra) ≤ total)
      (next : CodeLengths code total bits
        (known ++ List.replicate (3 + lsbValue extra) previous) rest lengths) :
      CodeLengths code total (word ++ (extra ++ bits)) known rest lengths
  | zeros {word extra bits rest : Bits} {known lengths : List Nat} {long : Bool}
      (codeword : Codeword code (if long then 18 else 17) word)
      (extraLength : extra.length = if long then 7 else 3)
      (room : known.length + ((if long then 11 else 3) + lsbValue extra) ≤ total)
      (next : CodeLengths code total bits
        (known ++ List.replicate ((if long then 11 else 3) + lsbValue extra) 0) rest lengths) :
      CodeLengths code total (word ++ (extra ++ bits)) known rest lengths

/-- The description of the codes of a dynamic block. -/
inductive DynamicCodes : (bits rest : Bits) → (literals distances : List Nat) → Prop
  | intro {hlit hdist hclen : Nat} {sent lengths : List Nat} {bits rest : Bits}
      (literalRange : hlit + 257 ≤ 286) (distanceRange : hdist + 1 ≤ 30) (codeRange : hclen < 16)
      (sentLength : sent.length = hclen + 4) (sentSmall : ∀ len ∈ sent, len < 8)
      (codeKraft : Kraft maxBits (arrange sent))
      (runs : CodeLengths (arrange sent) (hlit + 257 + (hdist + 1)) bits [] rest lengths)
      (literalKraft : Kraft maxBits (lengths.take (hlit + 257)))
      (distanceKraft : Kraft maxBits (lengths.drop (hlit + 257))) :
      DynamicCodes
        (lsbBits 5 hlit ++ (lsbBits 5 hdist ++ (lsbBits 4 hclen ++
          (sent.flatMap (lsbBits 3) ++ bits))))
        rest (lengths.take (hlit + 257)) (lengths.drop (hlit + 257))

/-! ## Blocks -/

/-- A block after its header.  The bits end at a byte boundary, so a stored block
skips as many bits as there are over a whole number of bytes. -/
inductive Body : (type : Nat) → (bits : Bits) → (out : List UInt8) → (rest : Bits) →
    (out' : List UInt8) → Prop
  | stored {skipped rest : Bits} {out data : List UInt8} (short : data.length < 2 ^ 16)
      (aligned : rest.length % 8 = 0) (partial_byte : skipped.length < 8) :
      Body 0
        (skipped ++ (lsbBits 16 data.length ++ (lsbBits 16 (2 ^ 16 - 1 - data.length) ++
          (bytesBits data ++ rest))))
        out rest (out ++ data)
  | fixed {bits rest : Bits} {out out' : List UInt8}
      (symbols : Symbols fixedLiterals fixedDistances bits out rest out') :
      Body 1 bits out rest out'
  | dynamic {bits middle rest : Bits} {out out' : List UInt8} {literals distances : List Nat}
      (codes : DynamicCodes bits middle literals distances)
      (symbols : Symbols literals distances middle out rest out') :
      Body 2 bits out rest out'

/-- A sequence of blocks up to the one marked final. -/
inductive Blocks : (bits : Bits) → (out : List UInt8) → (rest : Bits) → (out' : List UInt8) → Prop
  | final {type : Nat} {bits rest : Bits} {out out' : List UInt8} (body : Body type bits out rest out') :
      Blocks (true :: (lsbBits 2 type ++ bits)) out rest out'
  | more {type : Nat} {bits middle rest : Bits} {out middleOut out' : List UInt8}
      (body : Body type bits out middle middleOut) (next : Blocks middle middleOut rest out') :
      Blocks (false :: (lsbBits 2 type ++ bits)) out rest out'

/-- A byte string starts with a compressed stream that expands to `out`. -/
def Inflates (input out : List UInt8) : Prop := ∃ rest, Blocks (bytesBits input) [] rest out

end Deflate
