import Gem5.Basic

/-!
# Chunks of an address region

`ChunkGenerator` of `chunk_generator.hh`: a region of addresses is handed out in chunks that end at
the multiples of the chunk size. Addresses and sizes are unsigned numbers of 64 bits, so sums and
differences wrap around.
-/

namespace Gem5

def addAddr (a b : ℕ) : ℕ := (a + b) % 2 ^ 64

def subAddr (a b : ℕ) : ℕ := (a + 2 ^ 64 - b) % 2 ^ 64

def isPowerOf2 (n : ℕ) : Bool := n != 0 && n &&& (n - 1) == 0

/-- `roundUp(val, align)`. The alignment is a power of two, and the mask clears the bits below it. -/
def roundUp (val align : ℕ) : ℕ := addAddr val (align - 1) / align * align

structure ChunkGenerator where
  curAddr : ℕ
  nextAddr : ℕ
  curSize : ℕ
  nextSize : ℕ
  sizeLeft : ℕ
  startAddr : ℕ
  chunkSize : ℕ
  isFirstOfChunk : Bool
  deriving DecidableEq, Repr

namespace ChunkGenerator

def firstNext (startAddr totalSize chunkSize : ℕ) : ℕ :=
  if chunkSize = 0 then addAddr startAddr totalSize
  else
    let next := roundUp startAddr chunkSize
    let next := if startAddr = next then addAddr next chunkSize else next
    min next (addAddr startAddr totalSize)

def create (startAddr totalSize chunkSize : ℕ) : Except Halt ChunkGenerator := do
  require (chunkSize = 0 ∨ isPowerOf2 chunkSize) "chunkSize == 0 || isPowerOf2(chunkSize)"
  let nextAddr := firstNext startAddr totalSize chunkSize
  let curSize := subAddr nextAddr startAddr
  let sizeLeft := subAddr totalSize curSize
  return {
    curAddr := startAddr
    nextAddr := nextAddr
    curSize := curSize
    nextSize := min sizeLeft chunkSize
    sizeLeft := sizeLeft
    startAddr := startAddr
    chunkSize := chunkSize
    isFirstOfChunk := true }

def addr (g : ChunkGenerator) : ℕ := g.curAddr

def size (g : ChunkGenerator) : ℕ := g.curSize

def isHead (g : ChunkGenerator) : Bool := g.isFirstOfChunk

def complete (g : ChunkGenerator) : ℕ := subAddr g.curAddr g.startAddr

def done (g : ChunkGenerator) : Bool := g.curSize == 0

def last (g : ChunkGenerator) : Bool := g.sizeLeft == 0

/-- `setNext(next)`: the chunk grows up to `next`. -/
def setNext (g : ChunkGenerator) (next : ℕ) : Except Halt ChunkGenerator := do
  require (g.nextAddr ≤ next) "next >= nextAddr"
  let skipping := min (subAddr next g.nextAddr) g.sizeLeft
  let sizeLeft := subAddr g.sizeLeft skipping
  require (g.chunkSize ≠ 0) "chunkSize"
  let nextSize := subAddr (roundUp next g.chunkSize) next
  return { g with
    sizeLeft := sizeLeft
    curSize := addAddr g.curSize skipping
    nextAddr := next
    nextSize := if nextSize = 0 then min sizeLeft g.chunkSize else nextSize }

/-- `next()`, with what it returns. -/
def next (g : ChunkGenerator) : Bool × ChunkGenerator :=
  if g.last then (false, { g with curSize := 0 })
  else
    let sizeLeft := subAddr g.sizeLeft g.nextSize
    (true, { g with
      curAddr := g.nextAddr
      curSize := g.nextSize
      sizeLeft := sizeLeft
      nextAddr := addAddr g.nextAddr g.nextSize
      nextSize := min sizeLeft g.chunkSize
      isFirstOfChunk := false })

/-- `for (gen; !gen.done(); gen.next())`: the generator at each chunk, if the loop ends in so many
turns. -/
def chunks : ℕ → ChunkGenerator → Option (List ChunkGenerator)
  | 0, _ => none
  | turns + 1, g => if g.done then some [] else (chunks turns g.next.2).map (g :: ·)

inductive Op
  | next
  | setNext (next : ℕ)
  deriving DecidableEq, Repr

def step (g : ChunkGenerator) : Op → Except Halt ChunkGenerator
  | .next => .ok g.next.2
  | .setNext next => g.setNext next

end ChunkGenerator

end Gem5
