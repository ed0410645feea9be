import MatchCompiler.Register
import MatchCompiler.Symbol

/-!
# Symbols shard by shard

Matches that are compiled side by side draw their symbols from one interner. It
keeps the strings of each shard apart, with a map from strings to positions, and
counts them all together. A shard that has no position left refuses the string.
-/

set_option autoImplicit false

namespace MatchCompiler

/-- A string for which its shard, with so many strings, has no position. -/
structure ShardOverflow where
  shard : Nat
  count : Nat
deriving DecidableEq, Repr

def ShardOverflow.message (error : ShardOverflow) : String :=
  "interner shard " ++ toString error.shard ++ " exceeded capacity: " ++ toString error.count ++
    " strings, max is " ++ toString (Symbol.capacity - 1)

structure ShardedTable where
  shards : Vector (Register String) Symbol.shardCount
  /-- The strings of all shards, the empty one among them. -/
  total : Nat

namespace ShardedTable

def empty : ShardedTable where
  shards := .ofFn fun shard =>
    if shard.val = 0 then (Register.empty.intern "").2 else Register.empty
  total := 1

/-- The first eight bytes, hashed in words of 32 bits. -/
def hash (text : String) : UInt32 :=
  (text.toUTF8.toList.take 8).foldl (fun hash byte => hash * 31 + byte.toUInt32) 0

def shardFor (text : String) : Fin Symbol.shardCount :=
  ⟨(hash text).toNat % Symbol.shardCount, Nat.mod_lt _ (by decide)⟩

def intern (table : ShardedTable) (text : String) : Except ShardOverflow (Symbol × ShardedTable) :=
  if text = "" then .ok (.empty, table)
  else
    let shard := shardFor text
    let register := table.shards.get shard
    match register.numbers[text]? with
    | some position => .ok (.ofParts shard position, table)
    | none =>
        let count := register.entries.length
        if count < Symbol.capacity then
          .ok (.ofParts shard count,
            ⟨table.shards.set shard (register.intern text).2 shard.isLt, table.total + 1⟩)
        else .error ⟨shard, count⟩

def internAll (table : ShardedTable) :
    List String → Except ShardOverflow (List Symbol × ShardedTable)
  | [] => .ok ([], table)
  | text :: rest => do
      let (symbol, table) ← table.intern text
      let (symbols, table) ← table.internAll rest
      return (symbol :: symbols, table)

def lookup (table : ShardedTable) (symbol : Symbol) : Option String :=
  table.shards[symbol.shard]?.bind fun register => register.entries[symbol.position]?

end ShardedTable

namespace SymbolTable

def symbolsOf (table : SymbolTable) : List String → List Symbol
  | [] => []
  | text :: rest => (table.intern text).1 :: (table.intern text).2.symbolsOf rest

def sharded (table : SymbolTable) : ShardedTable where
  shards := .ofFn fun shard => .ofEntries (table.inShard shard)
  total := table.size

end SymbolTable

end MatchCompiler
