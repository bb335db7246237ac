import Chore.Attempt

/-!
# Deflated data

Decoding of the DEFLATE format. Input is read bit by bit from the low end of each byte, and output
grows byte by byte; blocks are stored, or coded with fixed or transmitted prefix codes. Decoding
ends with the last block, where the input ends, or at corrupt data; what was decoded until then is
kept. A copy from before the start of the output reads zeros.
-/

set_option autoImplicit false

namespace Chore.Archive.Inflate

/-- Why decoding stopped before the last block ended. -/
inductive Stop where
  | endOfInput
  | corrupt
  deriving DecidableEq

/-- The input, the position in it in bits, and the output so far. -/
structure State where
  input : ByteArray
  position : Nat := 0
  output : ByteArray := .empty

/-- A part of the decoding. -/
abbrev Decoder (α : Type) : Type :=
  Attempt State Stop α

/-- Reads one bit. -/
def bit : Decoder Nat := fun s =>
  match s.input[s.position / 8]? with
  | none => (.error .endOfInput, s)
  | some b => (.ok (b.toNat >>> (s.position % 8) % 2), { s with position := s.position + 1 })

/-- Reads a number of so many bits, lowest bit first. -/
def bits : Nat → Decoder Nat
  | 0 => pure 0
  | n + 1 => do
    let low ← bit
    let high ← bits n
    return low + 2 * high

/-- Skips to the next whole byte. -/
def align : Decoder Unit :=
  .modify fun s => { s with position := (s.position + 7) / 8 * 8 }

/-- Adds a byte to the output. -/
def emit (b : UInt8) : Decoder Unit :=
  .modify fun s => { s with output := s.output.push b }

/-- A prefix code: for each length, how many codewords have it, and the symbols in the order of
their codewords. -/
structure Code where
  counts : List Nat
  symbols : Array Nat

/-- The prefix code in which each symbol has the given length; zero is for symbols that are not
used. The lengths must leave no codeword over, unless at most one symbol is used. -/
def Code.ofLengths (maxLength : Nat) (lengths : List Nat) : Option Code :=
  let counts := (List.range maxLength).map fun k => lengths.count (k + 1)
  let symbols := (List.range maxLength).flatMap fun k =>
    (lengths.zipIdx.filter fun e => e.1 = k + 1).map (·.2)
  let room := counts.foldl (fun (left : Int) (n : Nat) => 2 * left - n) 1
  if room = 0 ∨ symbols.length ≤ 1 then some ⟨counts, symbols.toArray⟩ else none

/-- Reads a codeword, one bit at a time: `code` is what was read, `first` the first codeword of
this length, and `index` the number of shorter codewords. -/
def symbolAfter (symbols : Array Nat) : List Nat → Nat → Nat → Nat → Decoder Nat
  | [], _, _, _ => .fail .corrupt
  | count :: counts, code, first, index => do
    let code := code + (← bit)
    if code < first + count then
      match symbols[index + (code - first)]? with
      | some s => return s
      | none => .fail .corrupt
    else symbolAfter symbols counts (2 * code) (2 * (first + count)) (index + count)

/-- Reads a symbol. -/
def Code.symbol (c : Code) : Decoder Nat :=
  symbolAfter c.symbols c.counts 0 0 0

/-- Copies bytes from so far back in the output. -/
def copyBack (distance : Nat) : Nat → Decoder Unit
  | 0 => pure ()
  | n + 1 => do
    let s ← .get
    let byte? := if distance ≤ s.output.size then s.output[s.output.size - distance]? else none
    emit (byte?.getD 0)
    copyBack distance n

/-- The smallest length of each length symbol, and how many more bits say which. -/
def lengthTable : List (Nat × Nat) :=
  [(3, 0), (4, 0), (5, 0), (6, 0), (7, 0), (8, 0), (9, 0), (10, 0), (11, 1), (13, 1), (15, 1),
   (17, 1), (19, 2), (23, 2), (27, 2), (31, 2), (35, 3), (43, 3), (51, 3), (59, 3), (67, 4),
   (83, 4), (99, 4), (115, 4), (131, 5), (163, 5), (195, 5), (227, 5), (258, 0)]

/-- The smallest distance of each distance symbol, and how many more bits say which. -/
def distanceTable : List (Nat × Nat) :=
  [(1, 0), (2, 0), (3, 0), (4, 0), (5, 1), (7, 1), (9, 2), (13, 2), (17, 3), (25, 3), (33, 4),
   (49, 4), (65, 5), (97, 5), (129, 6), (193, 6), (257, 7), (385, 7), (513, 8), (769, 8),
   (1025, 9), (1537, 9), (2049, 10), (3073, 10), (4097, 11), (6145, 11), (8193, 12), (12289, 12),
   (16385, 13), (24577, 13)]

/-- Reads the rest of a number whose symbol is known. -/
def ranged (table : List (Nat × Nat)) (symbol : Nat) : Decoder Nat :=
  match table[symbol]? with
  | some (base, extra) => do return base + (← bits extra)
  | none => .fail .corrupt

/-- Reads symbols up to the end of a block. Every symbol takes at least one bit, so the bits left
bound their number, which is the first argument. -/
def symbols (literals distances : Code) : Nat → Decoder Unit
  | 0 => .fail .endOfInput
  | n + 1 => do
    let s ← literals.symbol
    if s < 256 then
      emit s.toUInt8
      symbols literals distances n
    else if s = 256 then return
    else
      let length ← ranged lengthTable (s - 257)
      let distance ← ranged distanceTable (← distances.symbol)
      copyBack distance length
      symbols literals distances n

/-- More than the number of bits in the input. -/
def bound : Decoder Nat := do
  return 8 * (← .get).input.size + 1

/-- Reads bytes as they are. -/
def rawBytes : Nat → Decoder Unit
  | 0 => pure ()
  | n + 1 => do
    emit (← bits 8).toUInt8
    rawBytes n

/-- A stored block: its length, the length inverted, and the bytes. -/
def storedBlock : Decoder Unit := do
  align
  let length ← bits 16
  let inverted ← bits 16
  if length + inverted = 0xffff then rawBytes length else .fail .corrupt

/-- The code lengths of the fixed literal code. -/
def fixedLengths : List Nat :=
  List.replicate 144 8 ++ List.replicate 112 9 ++ List.replicate 24 7 ++ List.replicate 8 8

/-- A block in the fixed codes. -/
def fixedBlock : Decoder Unit := do
  match Code.ofLengths 15 fixedLengths, Code.ofLengths 15 (List.replicate 32 5) with
  | some literals, some distances => symbols literals distances (← bound)
  | _, _ => .fail .corrupt

/-- Reads so many code lengths, given those read before, last first. Symbols from 16 on repeat. -/
def codeLengths (c : Code) (wanted : Nat) : Nat → List Nat → Decoder (List Nat)
  | 0, _ => .fail .corrupt
  | n + 1, read =>
    if wanted ≤ read.length then
      if read.length = wanted then return read.reverse else .fail .corrupt
    else do
      let s ← c.symbol
      if s < 16 then codeLengths c wanted n (s :: read)
      else if s = 16 then
        match read with
        | [] => .fail .corrupt
        | last :: _ => codeLengths c wanted n (List.replicate (3 + (← bits 2)) last ++ read)
      else if s = 17 then codeLengths c wanted n (List.replicate (3 + (← bits 3)) 0 ++ read)
      else codeLengths c wanted n (List.replicate (11 + (← bits 7)) 0 ++ read)

/-- The order in which the lengths of the code for lengths are sent. -/
def lengthOrder : List Nat :=
  [16, 17, 18, 0, 8, 7, 9, 6, 10, 5, 11, 4, 12, 3, 13, 2, 14, 1, 15]

/-- Reads numbers of three bits. -/
def threeBits : Nat → Decoder (List Nat)
  | 0 => pure []
  | n + 1 => do
    let b ← bits 3
    return b :: (← threeBits n)

/-- A block in codes of its own. There are 286 literal and length symbols and 30 distance symbols,
so longer codes are corrupt. -/
def dynamicBlock : Decoder Unit := do
  let literalCount := 257 + (← bits 5)
  let distanceCount := 1 + (← bits 5)
  let sentCount := 4 + (← bits 4)
  if 286 < literalCount ∨ 30 < distanceCount then .fail .corrupt
  let sent := lengthOrder.zip (← threeBits sentCount)
  match Code.ofLengths 7 ((List.range 19).map fun k => (sent.lookup k).getD 0) with
  | none => .fail .corrupt
  | some c =>
    let total := literalCount + distanceCount
    let lengths ← codeLengths c total (total + 1) []
    match Code.ofLengths 15 (lengths.take literalCount),
        Code.ofLengths 15 (lengths.drop literalCount) with
    | some literals, some distances => symbols literals distances (← bound)
    | _, _ => .fail .corrupt

/-- Reads blocks up to the last one; the first argument bounds their number. -/
def blocks : Nat → Decoder Unit
  | 0 => .fail .endOfInput
  | n + 1 => do
    let last ← bit
    match ← bits 2 with
    | 0 => storedBlock
    | 1 => fixedBlock
    | 2 => dynamicBlock
    | _ => .fail .corrupt
    if last = 1 then return else blocks n

/-- Decodes deflated data: how it ended, and what was decoded. -/
def inflate (input : ByteArray) : Except Stop Unit × ByteArray :=
  let (outcome, s) := (do blocks (← bound)) { input : State }
  (outcome, s.output)

end Chore.Archive.Inflate
