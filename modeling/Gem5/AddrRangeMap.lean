import Gem5.AddrRange

/-!
# The address range map

`AddrRangeMap`, a `std::map` from ranges to values with a list of the iterators that were found last.
The tree is the list of its nodes in the order of `operator<`, and an iterator is the number of its
node, so that to look at one whose node is gone is undefined.
-/

namespace Gem5.Base

open Machine

structure RangeEntry (V : Type) where
  id : ℕ
  range : AddrRange
  value : V
  deriving DecidableEq, Repr

structure AddrRangeMap (V : Type) where
  maxCacheSize : ℕ
  tree : List (RangeEntry V) := []
  cache : List ℕ := []
  nextId : ℕ := 0
  deriving DecidableEq, Repr

namespace AddrRangeMap

variable {V : Type} (m : AddrRangeMap V)

def below (r : AddrRange) : List (RangeEntry V) := m.tree.takeWhile fun e => !r.lt e.range

def above (r : AddrRange) : List (RangeEntry V) := m.tree.dropWhile fun e => !r.lt e.range

def addNewEntryToCache (id : ℕ) : AddrRangeMap V :=
  if m.maxCacheSize ≠ 0 then
    if m.maxCacheSize ≤ m.cache.length then { m with cache := id :: m.cache.dropLast }
    else { m with cache := id :: m.cache }
  else m

section Find

variable (cond : AddrRange → Except Halt Bool)

def findCached : List ℕ → Except Halt (Option (RangeEntry V))
  | [] => .ok none
  | c :: cs =>
    match m.tree.find? fun e => e.id = c with
    | none => .error (.undefined "it->first of an erased entry")
    | some e => do if ← cond e.range then return some e else findCached cs

def findAbove : List (RangeEntry V) → Except Halt (Option (RangeEntry V))
  | [] => .ok none
  | e :: _ => do if ← cond e.range then return some e else return none

def findBelow : List (RangeEntry V) → Except Halt (Option (RangeEntry V))
  | [] => .ok none
  | i :: rest => do
    if ← cond i.range then return some i
    else match rest with
      | [] => return none
      | next :: _ => if next.range.mergesWith i.range then findBelow rest else return none

def findTree (r : AddrRange) : Except Halt (Option (RangeEntry V)) := do
  match ← findAbove cond (m.above r) with
  | some e => return some e
  | none => findBelow cond (m.below r).reverse

def find (r : AddrRange) : Except Halt (Option (RangeEntry V) × AddrRangeMap V) := do
  match ← m.findCached cond m.cache with
  | some e => return (some e, { m with cache := e.id :: m.cache.erase e.id })
  | none =>
    match ← m.findTree cond r with
    | some e => return (some e, m.addNewEntryToCache e.id)
    | none => return (none, m)

end Find

/-- `contains` of a range. -/
def containsRange (r : AddrRange) : Except Halt (Option (RangeEntry V) × AddrRangeMap V) :=
  m.find (fun r₁ => r.isSubset r₁) r

def contains (a : Addr) : Except Halt (Option (RangeEntry V) × AddrRangeMap V) :=
  m.containsRange (.ofSize a 1)

def intersects (r : AddrRange) : Except Halt (Option (RangeEntry V) × AddrRangeMap V) :=
  m.find (fun r₁ => r.intersects r₁) r

/-- `tree.insert`. If there is an equivalent key, the map stays as it is. -/
def insertNode (r : AddrRange) (d : V) : RangeEntry V × AddrRangeMap V :=
  match m.tree.find? fun e => !r.lt e.range && !e.range.lt r with
  | some e => (e, m)
  | none =>
    let e := ⟨m.nextId, r, d⟩
    (e, { m with tree := m.below r ++ e :: m.above r, nextId := m.nextId + 1 })

/-- `insert`. It is refused if the range intersects one of the map. -/
def insert (r : AddrRange) (d : V) : Except Halt (Option (RangeEntry V) × AddrRangeMap V) := do
  match ← m.intersects r with
  | (some _, m') => return (none, m')
  | (none, m') => return ((m'.insertNode r d).map some id)

/-- `erase(p)`. -/
def erase (p : ℕ) : Except Halt (AddrRangeMap V) :=
  if p ∈ m.tree.map (·.id) then
    .ok { m with cache := m.cache.filter (· ≠ p), tree := m.tree.filter fun e => e.id ≠ p }
  else .error (.undefined "tree.erase(p)")

def nodesFrom (p : Option ℕ) : List (RangeEntry V) := m.tree.dropWhile fun e => some e.id ≠ p

def nodesBetween (p q : Option ℕ) : List (RangeEntry V) :=
  (m.nodesFrom p).takeWhile fun e => some e.id ≠ q

/-- `q` can be reached from `p`. -/
def IsSpan (p q : Option ℕ) : Prop :=
  (∀ i ∈ p, i ∈ m.tree.map (·.id)) ∧ ∀ i ∈ q, i ∈ (m.nodesFrom p).map (·.id)

instance (p q : Option ℕ) : Decidable (m.IsSpan p q) := by
  delta IsSpan
  infer_instance

/-- `erase(p, q)`. Its loop takes `p` out of the cache in each turn. -/
def eraseRange (p q : Option ℕ) : Except Halt (AddrRangeMap V) :=
  if m.IsSpan p q then
    .ok { m with
      cache := if m.nodesBetween p q = [] then m.cache else m.cache.filter fun c => some c ≠ p
      tree := (m.tree.takeWhile fun e => some e.id ≠ p) ++
        (m.nodesFrom p).dropWhile fun e => some e.id ≠ q }
  else .error (.undefined "tree.erase(p, q)")

def clear : AddrRangeMap V := { m with cache := [], tree := [] }

inductive Op (V : Type)
  | insert (r : AddrRange) (d : V)
  | erase (p : ℕ)
  | eraseRange (p q : Option ℕ)
  | clear
  | contains (a : Addr)
  | containsRange (r : AddrRange)
  | intersects (r : AddrRange)
  deriving DecidableEq, Repr

def step (m : AddrRangeMap V) : Op V → Except Halt (AddrRangeMap V)
  | .insert r d => do return (← m.insert r d).2
  | .erase p => m.erase p
  | .eraseRange p q => m.eraseRange p q
  | .clear => .ok m.clear
  | .contains a => do return (← m.contains a).2
  | .containsRange r => do return (← m.containsRange r).2
  | .intersects r => do return (← m.intersects r).2

end AddrRangeMap

end Gem5.Base
