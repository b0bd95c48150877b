import OpenSoundControl.Address.Pattern

/-!
A cache of compiled patterns. A pattern is compiled once and kept under its text until the cache is
cleared; one that does not compile is not kept. Each entry has a stamp of its own, which tells
whether two look-ups were given the same entry. A request is finished before the next one begins.
-/

namespace OpenSoundControl

structure PatternCache.Entry where
  key : String
  pattern : Pattern
  stamp : Nat
  deriving DecidableEq, Repr

/-- `issued` counts the stamps given out so far. -/
structure PatternCache where
  entries : List PatternCache.Entry
  issued : Nat
  deriving DecidableEq, Repr

namespace PatternCache

def empty : PatternCache := ⟨[], 0⟩

def size (cache : PatternCache) : Nat :=
  cache.entries.length

def isEmpty (cache : PatternCache) : Bool :=
  cache.entries.isEmpty

def find? (cache : PatternCache) (key : String) : Option Entry :=
  cache.entries.find? fun entry => entry.key = key

def insert (cache : PatternCache) (key : String) (pattern : Pattern) : Entry × PatternCache :=
  let entry : Entry := ⟨key, pattern, cache.issued⟩
  (entry, ⟨entry :: cache.entries, cache.issued + 1⟩)

def get (cache : PatternCache) (text : String) : Except Error Entry × PatternCache :=
  match cache.find? text with
  | some entry => (.ok entry, cache)
  | none =>
      match Pattern.compile text with
      | .ok pattern =>
          let (entry, after) := cache.insert text pattern
          (.ok entry, after)
      | .error error => (.error error, cache)

def test (cache : PatternCache) (address pattern : String) : Except Error Bool × PatternCache :=
  match Address.decided? address pattern with
  | some answer => (.ok answer, cache)
  | none =>
      let (entry, after) := cache.get pattern
      (entry.map fun entry => entry.pattern.search address, after)

def clear (cache : PatternCache) : PatternCache :=
  { cache with entries := [] }

inductive Request where
  | test (address pattern : String)
  | get (pattern : String)
  | clear
  deriving DecidableEq, Repr

inductive Answer where
  | tested (result : Except Error Bool)
  | got (result : Except Error Entry)
  | cleared

def step (cache : PatternCache) : Request → Answer × PatternCache
  | .test address pattern =>
      let (result, after) := cache.test address pattern
      (.tested result, after)
  | .get pattern =>
      let (result, after) := cache.get pattern
      (.got result, after)
  | .clear => (.cleared, cache.clear)

def trace : PatternCache → List Request → List (Answer × PatternCache)
  | _, [] => []
  | cache, request :: rest =>
      let outcome := cache.step request
      outcome :: trace outcome.2 rest

def run (cache : PatternCache) (requests : List Request) : PatternCache :=
  requests.foldl (fun cache request => (cache.step request).2) cache

end PatternCache

end OpenSoundControl
