import TreeImage.Staging.Tree

namespace TreeImage.Build

open Staging (NodeId Tree)

/-- The post-order of what is below a node and the node itself, put before what comes later.  At
most `depth` levels are visited. -/
def postOrderBefore (tree : Tree) : (depth : Nat) → NodeId → List NodeId → List NodeId
  | 0, _, later => later
  | depth + 1, id, later =>
      (tree.children id).foldr (fun entry later => postOrderBefore tree depth entry.2 later)
        (id :: later)

/-- The nodes of a tree in post-order.  Every entry of a directory is a newer node than the
directory, so no level lies deeper than there are nodes. -/
def postOrder (tree : Tree) : List NodeId := postOrderBefore tree tree.size Staging.root []

structure Numbering where
  order : List NodeId
  numbers : Array UInt32
  parents : Array (Option NodeId)

namespace Numbering

def assign : List NodeId → (next : Nat) → Array UInt32 → Array UInt32
  | [], _, numbers => numbers
  | id :: rest, next, numbers =>
      assign rest (next + 1) (numbers.setIfInBounds id (UInt32.ofNat next))

/-- Records a node as the parent of its entries. -/
def adopt (tree : Tree) (parents : Array (Option NodeId)) (id : NodeId) :
    Array (Option NodeId) :=
  (tree.children id).foldl (fun parents entry => parents.setIfInBounds entry.2 (some id)) parents

def ofTree (tree : Tree) : Numbering :=
  let order := postOrder tree
  { order
    numbers := assign order 1 (Array.replicate tree.size 0)
    parents := order.foldl (adopt tree) (Array.replicate tree.size none) }

def count (numbering : Numbering) : Nat := numbering.order.length

def number (numbering : Numbering) (id : NodeId) : UInt32 := numbering.numbers[id]?.getD 0

def parent (numbering : Numbering) (id : NodeId) : Option NodeId :=
  numbering.parents[id]?.join

/-- The number of the parent of a node; what stands for the parent of the root is the first
number not in use. -/
def parentNumber (numbering : Numbering) (id : NodeId) : UInt32 :=
  match numbering.parent id with
  | some parent => numbering.number parent
  | none => UInt32.ofNat numbering.count + 1

end Numbering

end TreeImage.Build
