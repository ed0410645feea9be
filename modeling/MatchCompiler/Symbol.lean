/-!
# Symbols

Every string that occurs in a match (variable, member and method names, string
literals) is replaced by a symbol. Symbols are spread over sixteen shards by the
first eight bytes of the string; inside a shard they are numbered in the order
in which the strings arrived.
-/

set_option autoImplicit false

namespace MatchCompiler

/-- The four high bits of the number choose the shard, the other 28 the
position in it. -/
structure Symbol where
  raw : Nat
deriving DecidableEq, Hashable, Repr, Inhabited

namespace Symbol

def capacity : Nat := 0x10000000

def shardCount : Nat := 16

def ofParts (shard position : Nat) : Symbol :=
  ⟨shard * capacity + position⟩

def shard (symbol : Symbol) : Nat :=
  symbol.raw / capacity

def position (symbol : Symbol) : Nat :=
  symbol.raw % capacity

def empty : Symbol := ⟨0⟩

def render (symbol : Symbol) : String :=
  "Name(" ++ toString symbol.shard ++ ":" ++ toString symbol.position ++ ")"

/-- The shard of a string depends on its first eight bytes only. -/
def shardOf (text : String) : Nat :=
  (text.toUTF8.toList.take 8).foldl (fun hash byte => 31 * hash + byte.toNat) 0 % shardCount

end Symbol

/-- The distinct strings seen so far, oldest first. The empty string is always
there and comes first. -/
structure SymbolTable where
  entries : List String
deriving DecidableEq, Repr

namespace SymbolTable

def empty : SymbolTable := ⟨[""]⟩

def inShard (table : SymbolTable) (shard : Nat) : List String :=
  table.entries.filter (Symbol.shardOf · == shard)

def find? (table : SymbolTable) (text : String) : Option Symbol :=
  let shard := Symbol.shardOf text
  ((table.inShard shard).idxOf? text).map (Symbol.ofParts shard)

def intern (table : SymbolTable) (text : String) : Symbol × SymbolTable :=
  match table.find? text with
  | some symbol => (symbol, table)
  | none =>
      let shard := Symbol.shardOf text
      (Symbol.ofParts shard (table.inShard shard).length, ⟨table.entries ++ [text]⟩)

def internAll (table : SymbolTable) (texts : List String) : SymbolTable :=
  texts.foldl (fun table text => (table.intern text).2) table

def lookup (table : SymbolTable) (symbol : Symbol) : Option String :=
  (table.inShard symbol.shard)[symbol.position]?

def size (table : SymbolTable) : Nat :=
  table.entries.length

def isEmpty (table : SymbolTable) : Bool :=
  table.size ≤ 1

end SymbolTable

end MatchCompiler
