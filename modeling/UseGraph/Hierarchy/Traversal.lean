import UseGraph.Hierarchy.Basic

/-!
# Walks and outlines

Both walks take the next entry from the front of a waiting list and differ
only in where its children are put: at the end, which goes level by level, or
at the front, which finishes each subtree first. No walk visits more entries
than there are. Siblings that an order does not tell apart stay as they were
attached.

An outline is a hierarchy as one nested value, each label with the outlines of
its children. A leaf and a container without children stay distinct.
-/

set_option autoImplicit false

namespace UseGraph.Hierarchy

variable {α : Type}

def visit (wait : Nat → List Nat → List Nat) : Nat → List Nat → List Nat
  | 0, _ => []
  | _ + 1, [] => []
  | k + 1, id :: rest => id :: visit wait k (wait id rest)

def descendants (t : Hierarchy α) : List Nat :=
  visit (fun id rest => rest ++ t.children id) t.size [t.root]

def sortedChildren (t : Hierarchy α) (le : Nat → Nat → Bool) (id : Nat) : List Nat :=
  (t.children id).mergeSort le

def preorder (t : Hierarchy α) (le : Nat → Nat → Bool) : List Nat :=
  visit (fun id rest => t.sortedChildren le id ++ rest) t.size [t.root]

def attached (_ _ : Nat) : Bool := true

def leaves (t : Hierarchy α) : List Nat := (t.preorder attached).filter t.isLeaf

def records (t : Hierarchy α) : List Nat :=
  (t.preorder attached).filter fun id => (t.payload? id).isSome

end UseGraph.Hierarchy

namespace UseGraph

inductive Outline (α : Type) where
  | leaf (label : α)
  | container (label : α) (children : List (Outline α))

namespace Outline

variable {α β σ : Type}

mutual

def fold (f : α → Option (List β) → β) : Outline α → β
  | .leaf a => f a none
  | .container a cs => f a (some (foldAll f cs))

def foldAll (f : α → Option (List β) → β) : List (Outline α) → List β
  | [] => []
  | c :: cs => fold f c :: foldAll f cs

end

mutual

def relabel (f : σ → α → β × σ) (s : σ) : Outline α → Outline β × σ
  | .leaf a =>
    let (b, s) := f s a
    (.leaf b, s)
  | .container a cs =>
    let (b, s) := f s a
    let (ds, s) := relabelAll f s cs
    (.container b ds, s)

def relabelAll (f : σ → α → β × σ) (s : σ) :
    List (Outline α) → List (Outline β) × σ
  | [] => ([], s)
  | c :: cs =>
    let (d, s) := relabel f s c
    let (ds, s) := relabelAll f s cs
    (d :: ds, s)

end

def map (f : α → β) (o : Outline α) : Outline β :=
  o.fold fun a cs =>
    match cs with
    | none => .leaf (f a)
    | some cs => .container (f a) cs

end Outline

namespace Hierarchy

variable {α : Type}

def outlineFrom (t : Hierarchy α) (le : Nat → Nat → Bool) : Nat → Nat → Outline Nat
  | 0, id => .leaf id
  | k + 1, id =>
    if t.isLeaf id then .leaf id
    else .container id ((t.sortedChildren le id).map (outlineFrom t le k))

def outline (t : Hierarchy α) (le : Nat → Nat → Bool) : Outline Nat :=
  t.outlineFrom le t.size t.root

end Hierarchy

end UseGraph
