import ChunkStore.Bytes

/-!
# The Fletcher-32 checksum of a chunk

The bytes are read as big-endian 16-bit words, an odd last byte being the high half of a last
word. `fletcher32` keeps the sum of the words and the sum of the partial sums (`Sums`) and folds
the carries of both back in (`Sums.fold`) after every 360 words, the longest run during which
32 bits hold both sums.
-/

namespace ChunkStore.Checksum

namespace Fletcher

/-- The sum of the words so far, and the sum of those sums. -/
structure Sums where
  first : UInt32
  second : UInt32
  deriving DecidableEq, Repr

/-- Both sums after one more word. -/
def Sums.add (s : Sums) (word : UInt32) : Sums :=
  ⟨s.first + word, s.second + (s.first + word)⟩

/-- The high half of a sum added to its low half. -/
def foldCarry (sum : UInt32) : UInt32 := (sum &&& (0xffff : UInt32)) + sum >>> (16 : UInt32)

/-- Both sums with their carries folded back in. -/
def Sums.fold (s : Sums) : Sums := ⟨foldCarry s.first, foldCarry s.second⟩

/-- The big-endian words of the byte pairs; an odd last byte is left out. -/
def words : Bytes → List UInt32
  | high :: low :: rest => (high.toUInt32 <<< (8 : UInt32) ||| low.toUInt32) :: words rest
  | _ => []

/-- The last word, when the number of bytes is odd. -/
def oddWord (bytes : Bytes) : Option UInt32 :=
  if bytes.length % 2 = 1 then bytes.getLast?.map (·.toUInt32 <<< (8 : UInt32)) else none

/-- The longest run of words between two folds. -/
def runLength : Nat := 360

/-- Adds runs of words, folding after each; the last run may be shorter, but not empty. -/
def addRuns (s : Sums) (runs : List (List UInt32)) : Sums :=
  runs.foldl (fun s run => (run.foldl Sums.add s).fold) s

/-- The words cut into runs of `runLength`, with a shorter last one. -/
def runs (ws : List UInt32) : List (List UInt32) :=
  takeChunks runLength ((ws.length + runLength - 1) / runLength) ws

end Fletcher

open Fletcher in
/-- The Fletcher-32 checksum of `bytes`. -/
def fletcher32 (bytes : Bytes) : UInt32 :=
  let pairs := addRuns ⟨0, 0⟩ (runs (words bytes))
  let all := match oddWord bytes with
    | some word => (pairs.add word).fold
    | none => pairs
  let ⟨first, second⟩ := all.fold
  second <<< (16 : UInt32) ||| first

end ChunkStore.Checksum
