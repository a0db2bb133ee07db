/-!
# Canonical prefix codes

A prefix code is given by the length of each symbol's code word. `Tree.ofLengths` builds the
decoding tree in which shorter words come first and words of one length are in the order of their
symbols; `wellFormed` says which length lists are accepted: those whose words fill the tree, and
codes of at most one word. `Tree.decode` walks the tree bit by bit and stops as soon as no code
word begins with the bits seen; a code without words is given up at its first bit.
-/

namespace ChunkStore.Zlib

/-- A decoding tree. -/
inductive Tree where
  /-- No code word goes this way. -/
  | missing
  | leaf (symbol : Nat)
  | node (zero one : Tree)
  deriving Repr

namespace Tree

/-- The longest code word. -/
def maxLength : Nat := 15

/-- The bits of a word that are looked up at once. -/
def lookupBits : Nat := 10

/-- The symbols in use with their lengths, shortest first. -/
def usedSymbols (lengths : List Nat) : List (Nat × Nat) :=
  (lengths.zipIdx.filter fun (length, _) => length ≠ 0).mergeSort fun a b => a.1 ≤ b.1

/-- What a way that no word takes leads to, `depth` bits down: nothing within the bits that are
looked up at once, and symbol 0 past them. -/
def untaken (depth : Nat) : Tree := if lookupBits < depth then leaf 0 else missing

/-- Places the first of `used` that fit below a node `depth` bits down, and returns the rest. -/
def place : (height depth : Nat) → (used : List (Nat × Nat)) → Tree × List (Nat × Nat)
  | _, depth, [] => (untaken depth, [])
  | 0, _, used => (missing, used)
  | height + 1, depth, (length, symbol) :: used =>
    if length = depth then (leaf symbol, used)
    else
      let (zero, used) := place height (depth + 1) ((length, symbol) :: used)
      let (one, used) := place height (depth + 1) used
      (node zero one, used)

/-- The tree of the canonical code with the given lengths, by symbol; 0 leaves a symbol out. -/
def ofLengths (lengths : List Nat) : Tree :=
  match usedSymbols lengths with
  | [] => node missing missing
  | used => (place (maxLength + 1) 0 used).1

/-- The share of all `maxLength`-bit strings that the code words begin. -/
def covered (lengths : List Nat) : Nat :=
  (usedSymbols lengths).foldl (fun total (length, _) => total + 1 <<< (maxLength - length)) 0

/-- Whether the words fill the tree; no words at all, or a lone one of at most `lone` bits, may
leave it unfilled. -/
def wellFormed (lone : Nat) (lengths : List Nat) : Bool :=
  covered lengths = 1 <<< maxLength ||
    match usedSymbols lengths with
    | [] => true
    | [(length, _)] => length ≤ lone
    | _ => false

/-- The result of walking the tree along some bits. -/
inductive Walk where
  /-- A code word, and the bits after it. -/
  | symbol (symbol : Nat) (rest : List Bool)
  /-- The bits end inside a code word. -/
  | bitsEnd
  /-- No code word begins with the bits. -/
  | noWord
  deriving Repr

/-- The symbol whose code word begins the bits. -/
def decode : Tree → List Bool → Walk
  | missing, _ => .noWord
  | leaf symbol, bits => .symbol symbol bits
  | node _ _, [] => .bitsEnd
  | node zero one, bit :: bits => if bit then one.decode bits else zero.decode bits

end Tree

end ChunkStore.Zlib
