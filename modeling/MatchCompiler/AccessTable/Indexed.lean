import MatchCompiler.AccessTable
import MatchCompiler.Register

/-!
# Tables with an index

Interning asks a table over and over whether it has an entry. A table that keeps
the number of each entry in a map need not be searched for it. The maps follow
from the entries, so a table can be told by its entries and indexed again.
-/

set_option autoImplicit false

namespace MatchCompiler

structure IndexedTable where
  temps : Register TempEntry
  accesses : Register AccessEntry

namespace IndexedTable

def ofInput (type : Ty) : IndexedTable :=
  ⟨(Register.empty.intern ⟨type, none, 0⟩).2, .empty⟩

/-- Temps and accesses in the order of their numbers, as they are written down. -/
def ofParts (temps : List TempEntry) (accesses : List AccessEntry) : IndexedTable :=
  ⟨.ofEntries temps, .ofEntries accesses⟩

def access (table : IndexedTable) (input : Temp) (kind : AccessKind) : Access × IndexedTable :=
  let (number, accesses) := table.accesses.intern ⟨input, kind⟩
  (⟨number⟩, { table with accesses })

def output (table : IndexedTable) (source : Access) (position : Nat) (type : Ty) :
    Temp × IndexedTable :=
  let (number, temps) := table.temps.intern ⟨type, some source, position⟩
  (⟨number⟩, { table with temps })

def entries (table : IndexedTable) : AccessTable :=
  ⟨table.temps.entries, table.accesses.entries⟩

end IndexedTable

/-! ## What tables are asked -/

/-- An entry of a table, of one of the two kinds that are numbered. -/
inductive TableEntry where
  | access (entry : AccessEntry)
  | temp (entry : TempEntry)
deriving DecidableEq, Repr

inductive TableNumber where
  | access (access : Access)
  | temp (temp : Temp)
deriving DecidableEq, Repr

def TableNumber.index : TableNumber → Nat
  | .access made => made.index
  | .temp filled => filled.index

/-- A request for the number of an access, or of one output of an access. -/
inductive Inquiry where
  | access (input : Temp) (kind : AccessKind)
  | output (source : Access) (position : Nat) (type : Ty)
deriving DecidableEq, Repr

def Inquiry.entry : Inquiry → TableEntry
  | .access input kind => .access ⟨input, kind⟩
  | .output source position type => .temp ⟨type, some source, position⟩

namespace AccessTable

def stored? (table : AccessTable) : TableNumber → Option TableEntry
  | .access made => (table.access? made).map .access
  | .temp filled => (table.temp? filled).map .temp

/-- The number that an inquiry gets, and the table behind it. -/
def answer (table : AccessTable) : Inquiry → TableNumber × AccessTable
  | .access input kind =>
      let (made, table) := table.access input kind
      (.access made, table)
  | .output source position type =>
      let (filled, table) := table.output source position type
      (.temp filled, table)

def answerAll (table : AccessTable) (inquiries : List Inquiry) : AccessTable :=
  inquiries.foldl (fun table inquiry => (table.answer inquiry).2) table

end AccessTable

def AccessTable.indexed (table : AccessTable) : IndexedTable :=
  .ofParts table.temps table.accesses

namespace IndexedTable

def answer (table : IndexedTable) : Inquiry → TableNumber × IndexedTable
  | .access input kind =>
      let (made, table) := table.access input kind
      (.access made, table)
  | .output source position type =>
      let (filled, table) := table.output source position type
      (.temp filled, table)

def answerAll (table : IndexedTable) (inquiries : List Inquiry) : IndexedTable :=
  inquiries.foldl (fun table inquiry => (table.answer inquiry).2) table

end IndexedTable

end MatchCompiler
