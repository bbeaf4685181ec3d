import Std.Data.HashMap

/-!
# String pool

Keeps each distinct string once and gives it a number. All strings stand in one buffer; an entry
tells where one of them begins and how long it is, in bytes. Entries are found through an index by
hash value; strings that share one stand in the same bucket, so any hash function will do.

Number 0 is the empty string. Numbers, beginnings and lengths are kept in 32 bits.
-/

namespace Xml

/-- A pool whose index uses `hash`. -/
structure StringPool (hash : String → UInt64) where
  /-- All strings, one behind the other. -/
  data : String := ""
  /-- Where the string of each number begins and its length, in bytes. -/
  entries : Array (Nat × Nat) := #[(0, 0)]
  /-- The numbers under each hash value, oldest first. -/
  index : Std.HashMap UInt64 (List Nat) := {}

namespace StringPool

variable {hash : String → UInt64}

/-- A pool that holds the empty string only. -/
def empty : StringPool hash := {}

def word (n : Nat) : Nat :=
  n % UInt32.size

/-- The bytes of a text from one offset up to another, if they are there and are a text. -/
def slice? (text : String) (start stop : Nat) : Option String :=
  if stop ≤ text.utf8ByteSize then String.fromUTF8? (text.toUTF8.extract start stop) else none

/-- The string of a number; the empty one for a number not given out. -/
def get (pool : StringPool hash) (id : Nat) : String :=
  match pool.entries[id]? with
  | some (start, length) => (slice? pool.data start (start + length)).getD ""
  | none => ""

/-- The number of a string, if it is in the pool. -/
def lookup (pool : StringPool hash) (text : String) : Option Nat :=
  if text.isEmpty then some 0
  else (pool.index.getD (hash text) []).find? fun id => pool.get id == text

/-- The number of a string, which is added if it is new. -/
def intern (pool : StringPool hash) (text : String) : Nat × StringPool hash :=
  match pool.lookup text with
  | some id => (id, pool)
  | none =>
    let id := word pool.entries.size
    let bucket := pool.index.getD (hash text) []
    (id,
      { data := pool.data ++ text
        entries := pool.entries.push (word pool.data.utf8ByteSize, word text.utf8ByteSize)
        index := pool.index.insert (hash text) (bucket ++ [id]) })

/-- How many distinct strings the pool holds, the empty one included. -/
def size (pool : StringPool hash) : Nat :=
  pool.entries.size

def isEmpty (pool : StringPool hash) : Bool :=
  pool.entries.size ≤ 1

end StringPool

end Xml
