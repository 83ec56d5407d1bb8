import SyntaxRecovery.Numeral

/-! Properties of tree nodes and their written form. -/
namespace SyntaxRecovery

/-- A set of node properties. Bits without a name are kept. -/
structure NodeFlags where
  bits : UInt8
  deriving DecidableEq, Repr

namespace NodeFlags

def empty : NodeFlags := ⟨0⟩

/-- The node was built from malformed text. -/
def malformed : NodeFlags := ⟨1⟩

/-- The parser built the node, not a later change. -/
def parsed : NodeFlags := ⟨2⟩

/-- The node's slots must not be changed. -/
def protect : NodeFlags := ⟨4⟩

/-- The node's shape comes from recovery and is not to be trusted. -/
def recovered : NodeFlags := ⟨8⟩

def union (a b : NodeFlags) : NodeFlags := ⟨a.bits ||| b.bits⟩

def contains (a b : NodeFlags) : Bool := a.bits &&& b.bits == b.bits

def named : List (String × NodeFlags) :=
  [("MALFORMED", malformed), ("ORIGINAL", parsed), ("PROTECT", protect),
   ("RECOVERED", recovered)]

/-- The bits that no name stands for. -/
def unnamed (flags : NodeFlags) : UInt8 := flags.bits &&& 0xf0

def separator : Char := '|'

/-- The names of the set bits, then the bits without a name as one hexadecimal number. -/
def text (flags : NodeFlags) : String :=
  let names := (named.filter fun (_, flag) => flags.contains flag).map (·.1)
  let rest := if flags.unnamed = 0 then []
    else ["0x" ++ String.ofList (Nat.toDigits 16 flags.unnamed.toNat)]
  s!" {separator} ".intercalate (names ++ rest)

/-- The characters with the Unicode property White_Space. -/
def isSpace (c : Char) : Bool :=
  let n := c.toNat
  9 ≤ n && n ≤ 13 || n ∈ [0x20, 0x85, 0xa0, 0x1680, 0x2028, 0x2029, 0x202f, 0x205f, 0x3000] ||
    0x2000 ≤ n && n ≤ 0x200a

def trim (text : List Char) : List Char :=
  ((text.dropWhile isSpace).reverse.dropWhile isSpace).reverse

/-- The bits that hexadecimal digits give, as far as eight bits hold them. -/
def ofHex? (digits : List Char) : Option NodeFlags := do
  let value ← Numeral.value? 16 digits
  if value < 256 then some ⟨value.toUInt8⟩ else none

/-- One piece of a written set: a name, or `0x` and a number, which may have a plus sign. -/
def ofPiece? : List Char → Option NodeFlags
  | '0' :: 'x' :: '+' :: digits => ofHex? digits
  | '0' :: 'x' :: digits => ofHex? digits
  | piece => named.lookup (String.ofList piece)

def ofText? (text : String) : Option NodeFlags :=
  if (trim text.toList).isEmpty then some empty
  else do
    let pieces ← (text.toList.splitOn separator).mapM fun piece => ofPiece? (trim piece)
    return pieces.foldl union empty

end NodeFlags

end SyntaxRecovery
