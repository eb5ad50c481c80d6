import PageStore.Decimal.Tenths

/-!
# What a pool counts

Seven counters of 64 bits, which start again at zero after their last value.

Results:
* `zero_plus`: adding to fresh counters gives what was added.
-/
namespace PageStore

/-- What a pool has done since it was made or last reset. -/
structure Counters where
  /-- fetches served from the cache -/
  hits : UInt64
  /-- fetches that went to storage -/
  misses : UInt64
  /-- clean pages dropped to make room -/
  evictions : UInt64
  /-- pages read to serve fetches -/
  reads : UInt64
  /-- pages written -/
  writes : UInt64
  /-- pages taken back to their stored content by an abort -/
  rereads : UInt64
  /-- lock requests refused for good -/
  lockAborts : UInt64
  deriving DecidableEq, Repr, Inhabited

namespace Counters

def zero : Counters := ⟨0, 0, 0, 0, 0, 0, 0⟩

def plus (a b : Counters) : Counters :=
  ⟨a.hits + b.hits, a.misses + b.misses, a.evictions + b.evictions, a.reads + b.reads,
    a.writes + b.writes, a.rereads + b.rereads, a.lockAborts + b.lockAborts⟩

/-- All counters, in the order of their declaration. -/
def toList (c : Counters) : List UInt64 :=
  [c.hits, c.misses, c.evictions, c.reads, c.writes, c.rereads, c.lockAborts]

def addHit (c : Counters) : Counters := { c with hits := c.hits + 1 }

def addMiss (c : Counters) : Counters := { c with misses := c.misses + 1 }

def addEviction (c : Counters) : Counters := { c with evictions := c.evictions + 1 }

def addRead (c : Counters) : Counters := { c with reads := c.reads + 1 }

def addWrite (c : Counters) : Counters := { c with writes := c.writes + 1 }

def addReread (c : Counters) : Counters := { c with rereads := c.rereads + 1 }

def addLockAbort (c : Counters) : Counters := { c with lockAborts := c.lockAborts + 1 }

/-- Fetches counted in all. -/
def fetches (c : Counters) : UInt64 := c.hits + c.misses

/-- The share of fetches that the cache served; zero before the first. -/
def hitRate (c : Counters) : Float :=
  if c.fetches = 0 then 0.0 else c.hits.toFloat / c.fetches.toFloat

/-- The counters in one line, the hit rate in percent. -/
def display (c : Counters) : String :=
  "fetches " ++ toString c.hits ++ "/" ++ toString c.fetches ++ " hit (" ++
    Decimal.tenths (c.hitRate * 100.0) ++ "%), " ++ toString c.evictions ++ " evicted, " ++
    toString c.writes ++ " written, " ++ toString c.rereads ++ " reread, " ++
    toString c.lockAborts ++ " lock aborts"

theorem zero_plus (c : Counters) : zero.plus c = c := by
  simp [zero, plus]

end Counters
end PageStore
