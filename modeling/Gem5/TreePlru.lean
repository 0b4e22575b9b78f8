import Mathlib

/-!
# Tree-PLRU replacement

`replacement_policies/tree_plru_rp.cc`. The bits of the inner nodes of one tree are an array in
breadth-first order. The leaves stand behind them and are not stored.
-/

namespace Gem5

namespace TreePlru

def parentIndex (index : ℕ) : ℕ := (index - 1) / 2

def leftSubtreeIndex (index : ℕ) : ℕ := 2 * index + 1

def rightSubtreeIndex (index : ℕ) : ℕ := 2 * index + 2

def isRightSubtree (index : ℕ) : Bool := index % 2 == 0

/-- The loop of `invalidate` and `touch`: each node above `index` is given the `bit` for the side it
is reached from. -/
def update (bit : Bool → Bool) (tree : List Bool) (index : ℕ) : List Bool :=
  if index = 0 then tree
  else update bit (tree.set (parentIndex index) (bit (isRightSubtree index))) (parentIndex index)
termination_by index
decreasing_by simp only [parentIndex]; omega

theorem length_update (bit : Bool → Bool) (tree : List Bool) (index : ℕ) :
    (update bit tree index).length = tree.length := by
  fun_induction update with
  | case1 => rfl
  | case2 tree index _ ih => rw [ih, List.length_set]

/-- The loop of `getVictim`. -/
def walk (tree : List Bool) (index : ℕ) : ℕ :=
  if index < tree.length then
    if tree.getD index false then walk tree (rightSubtreeIndex index)
    else walk tree (leftSubtreeIndex index)
  else index
termination_by tree.length - index
decreasing_by all_goals simp only [rightSubtreeIndex, leftSubtreeIndex]; omega

end TreePlru

open TreePlru

/-- The tree that `instantiateEntry` makes for `numLeaves` entries. One of a single leaf has no
node, and `touch` throws. -/
structure TreePlru where
  levels : ℕ
  pos : 0 < levels
  tree : List Bool
  length_tree : tree.length = 2 ^ levels - 1

namespace TreePlru

variable (p : TreePlru)

def numLeaves : ℕ := 2 ^ p.levels

def instantiate (n : ℕ) : TreePlru :=
  ⟨n + 1, n.succ_pos, List.replicate (2 ^ (n + 1) - 1) false, List.length_replicate⟩

/-- The index that `instantiateEntry` gives to a leaf. -/
def index (leaf : ℕ) : ℕ := leaf + p.numLeaves - 1

def updated (bit : Bool → Bool) (leaf : ℕ) : TreePlru :=
  ⟨p.levels, p.pos, update bit p.tree (p.index leaf), (length_update ..).trans p.length_tree⟩

def invalidate (leaf : ℕ) : TreePlru := p.updated id leaf

def touch (leaf : ℕ) : TreePlru := p.updated not leaf

def reset (leaf : ℕ) : TreePlru := p.touch leaf

def getVictim : ℕ := walk p.tree 0 - (p.numLeaves - 1)

end TreePlru

end Gem5
