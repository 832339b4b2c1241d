import CompilerLab.Derivative.Tree
import Mathlib.Logic.Function.Basic

/-!
# Simplification

`SimplifyTree` changes the nodes of a tree in place and frees the children of a node that becomes a leaf. Memory is a map from
addresses to nodes; what is not in it has been freed or was never allocated, and reading or freeing that is `none`.
-/

namespace CompilerLab.Derivative

/-! ## Nodes in memory -/

/-- `Values`, with the type of the node that says which member is set. -/
inductive Values (α : Type*) where
  | dbl_val (dbl_val : α)
  | var_name (var_name : List Char)
  | op_val (op_val : Operations)
  deriving DecidableEq, Repr

namespace Values

variable {α : Type*}

def isNum : Values α → Bool
  | dbl_val _ => true
  | _ => false

def isOp : Values α → Bool
  | op_val _ => true
  | _ => false

end Values

structure Node (α : Type*) where
  value : Values α
  left : Option Nat
  right : Option Nat
  deriving DecidableEq, Repr

abbrev Memory (α : Type*) := Nat → Option (Node α)

/-- What the code does with the numbers. `bits` is the number that is read from a union in which another member is set; the
address of a name is a number near zero. -/
structure Arith (α : Type*) where
  zero : α
  one : α
  add : α → α → α
  mul : α → α → α
  isZero : α → Bool
  isEqual : α → α → Bool
  bits : Values α → α
  bits_ne_one : ∀ name, isEqual (bits (.var_name name)) one = false

variable {α : Type*} (A : Arith α)

/-- `value.dbl_val`, whatever member is set. -/
def Arith.dbl : Values α → α
  | .dbl_val d => d
  | v => A.bits v

/-! ## The rules -/

/-- The cases of zero and one. -/
def mulCases (left right : Values α) : Option (Values α) :=
  if A.isZero (A.dbl left) && left.isNum then some (.dbl_val A.zero)
  else if A.isZero (A.dbl right) && right.isNum then some (.dbl_val A.zero)
  else if A.isEqual (A.dbl right) A.one then
    match left with
    | .dbl_val d => some (.dbl_val d)
    | .var_name name => some (.var_name name)
    | .op_val _ => none
  else if A.isEqual (A.dbl left) A.one then
    match right with
    | .dbl_val d => some (.dbl_val d)
    | .var_name name => some (.var_name name)
    | .op_val _ => none
  else none

/-- The case of two numbers. -/
def numberCases (o : Operations) (left right : Values α) : Option (Values α) :=
  match left, right with
  | .dbl_val a, .dbl_val b =>
    match o with
    | .ADD => some (.dbl_val (A.add a b))
    | .MUL => some (.dbl_val (A.mul a b))
    | _ => none
  | _, _ => none

/-- What an operation whose children hold the given values is transformed to. -/
def rewrite (o : Operations) (left right : Values α) : Option (Values α) :=
  if left.isOp || right.isOp then none
  else if o = .MUL then mulCases A left right <|> numberCases A o left right
  else numberCases A o left right

/-! ## The simplifier -/

def free (h : Memory α) (p : Nat) : Option (Memory α) := do
  let _ ← h p
  return Function.update h p none

/-- `if (child) free (child)`. -/
def freeChild (h : Memory α) (child : Option Nat) : Option (Memory α) :=
  match child with
  | some p => free h p
  | none => some h

/-- `TransformNode`. -/
def transformNode (h : Memory α) (p : Nat) (value : Values α) : Option (Memory α) := do
  let node ← h p
  let h := Function.update h p (some { node with value })
  let h ← freeChild h node.left
  let h ← freeChild h node.right
  return Function.update h p (some { value, left := none, right := none })

/-- The part of `SimplifyTree` after its calls on the children, which have returned `n` in all. -/
def simplifyNode (h : Memory α) (p n : Nat) : Option (Memory α × Nat) := do
  let node ← h p
  match node.left, node.right with
  | some left, some right =>
    match node.value with
    | .op_val o =>
      match rewrite A o (← h left).value (← h right).value with
      | some value => return (← transformNode h p value, 1)
      | none => return (h, n)
    | _ => return (h, n)
  | _, _ => return (h, 0)

/-- `SimplifyTree` on the node at `p`: the memory after it and what it returns. `depth` bounds the depth of the recursion. -/
def simplifyTree : Nat → Memory α → Nat → Option (Memory α × Nat)
  | 0, _, _ => none
  | depth + 1, h, p => do
    let (h, n₁) ← (← h p).left.elim (some (h, 0)) (simplifyTree depth h)
    let (h, n₂) ← (← h p).right.elim (some (h, 0)) (simplifyTree depth h)
    simplifyNode A h p (n₁ + n₂)

/-! ## Trees in memory -/

open TreeNode in
/-- The pointer leads to a tree; nodes may be shared, as `CopyNode` shares the children of the node it copies. -/
inductive Represents (h : Memory α) : Option Nat → TreeNode α → Prop
  | null : Represents h none null
  | num {p : Nat} {d : α} (hp : h p = some ⟨.dbl_val d, none, none⟩) : Represents h (some p) (num d)
  | var {p : Nat} {name : List Char} (hp : h p = some ⟨.var_name name, none, none⟩) : Represents h (some p) (var name)
  | op {p : Nat} {o : Operations} {left right : Option Nat} {l r : TreeNode α} (hp : h p = some ⟨.op_val o, left, right⟩)
      (hl : Represents h left l) (hr : Represents h right r) : Represents h (some p) (op o l r)

namespace TreeNode

def height : TreeNode α → Nat
  | null => 0
  | num _ => 1
  | var _ => 1
  | op _ l r => max l.height r.height + 1

/-- What the node holds. -/
def root : TreeNode α → Option (Values α)
  | null => none
  | num d => some (.dbl_val d)
  | var name => some (.var_name name)
  | op o _ _ => some (.op_val o)

/-- The tree without children. -/
def leaf : Values α → TreeNode α
  | .dbl_val d => num d
  | .var_name name => var name
  | .op_val o => op o null null

/-- `SimplifyTree` on a tree: the tree after it, and what it returns when no node is shared. -/
def simplify : TreeNode α → TreeNode α × Nat
  | op o l r =>
    let l' := simplify l
    let r' := simplify r
    match l'.1.root, r'.1.root with
    | some left, some right =>
      match rewrite A o left right with
      | some value => (leaf value, 1)
      | none => (op o l'.1 r'.1, l'.2 + r'.2)
    | _, _ => (op o l'.1 r'.1, 0)
  | t => (t, 0)

end TreeNode

end CompilerLab.Derivative
