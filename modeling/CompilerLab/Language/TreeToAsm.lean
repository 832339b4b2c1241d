import CompilerLab.Language.Params

/-!
# The code generator

`tree_to_asm.cpp` without the comments it prints. The table of names is given by its operations. A line knows where in the tree
the node stands it is printed for; the line of a variable knows the name.
-/

namespace CompilerLab.Language

open Options TreeNode

def MAX_VARIABLES : Nat := 20

def MAX_NAMESPACES : Nat := 20

/-! ## What is printed -/

/-- A node by the way to it from the root (`false` is left), the innermost declaration of a function it stands in, and the
conditional whose condition it stands in. -/
structure Place where
  node : List Bool := []
  function : Option (List Bool) := none
  conditional : Option (List Bool) := none
  deriving DecidableEq, Repr

namespace Place

def left (place : Place) : Place := { place with node := place.node ++ [false] }

def right (place : Place) : Place := { place with node := place.node ++ [true] }

/-- The place of a declaration for what stands in it. -/
def inside (place : Place) : Place := { place with function := some place.node }

/-- The place of a condition. -/
def condition (place : Place) : Place := { place.left with conditional := some place.node }

section
variable {place : Place}

@[simp] theorem conditional_left : place.left.conditional = place.conditional := rfl

@[simp] theorem conditional_right : place.right.conditional = place.conditional := rfl

@[simp] theorem conditional_inside : place.inside.conditional = place.conditional := rfl

@[simp] theorem node_right : place.right.node = place.node ++ [true] := rfl

end

end Place

inductive Line where
  | instruction (text : String)
  | push_number (bits : BitVec 64)
  /-- `push [slot+rax]` or `pop [slot+rax]`. -/
  | variable (instruction : String) (name : String) (slot : Int)
  /-- The four lines that add the amount to `rax` or subtract it. -/
  | shift (instruction : String) (amount : Nat)
  | call (name : String)
  | jump (instruction : String) (label : String)
  | label (name : String)
  /-- `Adding new variable to namespace`, in the log. -/
  | introduce (name : String) (slot : Nat)
  deriving DecidableEq, Repr

/-! ## The tables -/

/-- What stops a table operation: a name that is not there is compared, an entry outside the table or behind the end of the stack
is used. -/
inductive TableFault where
  | nullName
  | outsideTable
  | stackOverflow
  | stackUnderflow
  deriving DecidableEq, Repr

/-- What stops the generator. -/
inductive GenerationFault where
  | nullDereference
  /-- A member of `Values` is read that the type of the node does not go with. -/
  | wrongMember
  /-- A number is used as the address of a string. -/
  | wildPointer
  | table (fault : TableFault)
  deriving DecidableEq, Repr

/-- The operations on `_namespace`, `namespace_pointer` and `namespace_offset`. -/
structure Names (σ : Type) where
  /-- `StackPop` and `StackPush` of the value. -/
  vars_before : σ → Except TableFault Nat
  /-- The loop of `GetVariablePos`. -/
  find : Nat → String → σ → Except TableFault (Option Nat)
  /-- `InsertVarInNamespace`, and the new amount on the stack. -/
  insert : Nat → String → σ → Except TableFault σ
  /-- The begin of `FUNC`. -/
  declare : Nat → σ → Except TableFault σ
  /-- The end of `FUNC`. -/
  leave : σ → Except TableFault σ

/-- `_namespace`, `namespace_pointer` and `namespace_offset`, the last element pushed first. -/
structure Namespaces where
  _namespace : Nat → Option String := fun _ => none
  namespace_pointer : Nat := 0
  namespace_offset : List Nat := []

namespace Namespaces

/-- The loop of `GetVariablePos` with so many entries left. -/
def findFrom (s : Namespaces) (var_name : String) : Nat → Nat → Except TableFault (Option Nat)
  | 0, _ => .ok none
  | left + 1, cur_indx =>
      if cur_indx < MAX_VARIABLES * MAX_NAMESPACES then
        match s._namespace cur_indx with
        | none => .error .nullName
        | some name =>
            if name = var_name then .ok (some (cur_indx - s.namespace_pointer))
            else findFrom s var_name left (cur_indx + 1)
      else .error .outsideTable

/-- `StackPush`. -/
def push (s : Namespaces) (value : Nat) : Except TableFault Namespaces :=
  if s.namespace_offset.length < MAX_NAMESPACES then .ok { s with namespace_offset := value :: s.namespace_offset }
  else .error .stackOverflow

/-- `StackPop`. -/
def pop (s : Namespaces) : Except TableFault (Nat × Namespaces) :=
  match s.namespace_offset with
  | top :: rest => .ok (top, { s with namespace_offset := rest })
  | [] => .error .stackUnderflow

/-- The operations of the program. -/
def names : Names Namespaces where
  vars_before s := do
    let (vars_before, s) ← s.pop
    let _ ← s.push vars_before
    return vars_before
  find var_amount var_name s := s.findFrom var_name var_amount s.namespace_pointer
  insert var_amount var_name s := do
    if var_amount + s.namespace_pointer < MAX_VARIABLES * MAX_NAMESPACES then
      let s := { s with _namespace := fun i => if i = var_amount + s.namespace_pointer then some var_name else s._namespace i }
      let (_, s) ← s.pop
      s.push (var_amount + 1)
    else .error .outsideTable
  declare vars_before s := do
    if vars_before ≤ MAX_VARIABLES * MAX_NAMESPACES then
      let s := { s with _namespace := fun i => if i < vars_before then none else s._namespace i }
      let s ← s.push 0
      return { s with namespace_pointer := s.namespace_pointer + MAX_VARIABLES }
    else .error .outsideTable
  leave s := do
    let (_, s) ← s.pop
    return { s with namespace_pointer := s.namespace_pointer - MAX_VARIABLES }

end Namespaces

/-! ## The generator -/

/-- The static variables of `PrintOperation`, the tables and what has been printed. -/
structure GenState (σ : Type) where
  names : σ
  label_counter : Nat := 0
  previous_option : Options := .UNKNOWN
  text : List (Place × Line) := []

abbrev Gen (σ : Type) : Type → Type := EStateM GenerationFault (GenState σ)

/-- What is not of the program: the string at an address that is the bits of a number. -/
structure Environment where
  text : BitVec 64 → Option String

/-- `label_counter` behind the first part of a label. -/
def ifLabel (n : Nat) : String := "if_label" ++ toString n

def elseLabel (n : Nat) : String := "else_label" ++ toString n

section
variable {σ : Type} (names : Names σ) (env : Environment)

/-- `PRINT`. -/
def print (place : Place) (line : Line) : Gen σ Unit := modify fun s => { s with text := s.text ++ [(place, line)] }

/-- `previous_option = operation`. -/
def setPrevious (operation : Options) : Gen σ Unit := modify fun s => { s with previous_option := operation }

/-- A table operation that only looks. -/
def look {α : Type} (operation : σ → Except TableFault α) : Gen σ α := do
  match operation (← get).names with
  | .ok a => return a
  | .error fault => throw (.table fault)

/-- A table operation. -/
def update (operation : σ → Except TableFault σ) : Gen σ Unit := do
  match operation (← get).names with
  | .ok names => modify fun s => { s with names }
  | .error fault => throw (.table fault)

/-- The string that begins at an address. -/
def textAt (address : BitVec 64) : Gen σ String :=
  match env.text address with
  | some name => return name
  | none => throw .wildPointer

/-- `node->value.var_name`. -/
def var_name : TreeNode → Gen σ String
  | null => throw .nullDereference
  | node .VAR_T (.var_name name) _ _ | node .NAME_T (.var_name name) _ _ | node .NAME_SHORT_T (.var_name name) _ _ => return name
  | node .NAME_T (.dbl_val bits) _ _ | node .NAME_SHORT_T (.dbl_val bits) _ _ => textAt env bits
  | _ => throw .wrongMember

/-- `GetVariablePos`: the position, and the new value of `*var_amount`. -/
def getVariablePos (place : Place) (var_amount : Nat) (var_name : String) : Gen σ (Int × Nat) := do
  match ← look (names.find var_amount var_name) with
  | some position => return ((position : Int), var_amount)
  | none =>
      update (names.insert var_amount var_name)
      print place (.introduce var_name var_amount)
      return (-1, var_amount + 1)

/-- The line of a parameter after `previous_option`. -/
def printParam (place : Place) (vars_before : Nat) (name : String) : Gen σ Unit := do
  let previous_option := (← get).previous_option
  if previous_option = IN then
    print place (.instruction "in")
    let (position, _) ← getVariablePos names place vars_before name
    print place (.variable "pop" name position)
  else if previous_option = OUT then
    let (position, _) ← getVariablePos names place vars_before name
    print place (.variable "push" name position)
    print place (.instruction "out")
  else if previous_option = CALL then
    let (position, _) ← getVariablePos names place vars_before name
    print place (.variable "push" name position)
  else if previous_option = FUNC then
    let (_, vars_before) ← getVariablePos names place vars_before name
    let (position, _) ← getVariablePos names place vars_before name
    print place (.variable "pop" name position)
  else if previous_option = RET then
    let (position, _) ← getVariablePos names place vars_before name
    print place (.variable "push" name position)

/-- `PrintOperation`. -/
def printOperation : Place → TreeNode → Gen σ Unit
  | _, null => return
  | place, node type value left right => do
      let vars_before ← look names.vars_before
      let l_child := printOperation place.left left
      let r_child := printOperation place.right right
      match type, value with
      | .OP_T, .op_val op =>
          match op with
          | .ST => l_child; r_child
          | .FUNC =>
              update (names.declare vars_before)
              printOperation place.inside.left left
              print place.inside (.instruction "push rcx")
              printOperation place.inside.right right
              update names.leave
          | .RET =>
              print place (.instruction "pop rcx")
              setPrevious RET
              l_child
              print place (.instruction "push rcx")
              print place (.instruction "ret")
          | .ADD => l_child; r_child; print place (.instruction "add")
          | .SUB => r_child; l_child; print place (.instruction "sub")
          | .MUL => l_child; r_child; print place (.instruction "mul")
          | .DIV => r_child; l_child; print place (.instruction "div")
          | .CALL =>
              setPrevious CALL
              r_child
              print place (.shift "add" (vars_before + 1))
              print place (.call (← var_name env left))
              print place (.shift "sub" (vars_before + 1))
          | .IS_EE => l_child; r_child; print place (.jump "jne" (ifLabel (← get).label_counter))
          | .IS_NE => l_child; r_child; print place (.jump "je" (ifLabel (← get).label_counter))
          | .IS_BT => r_child; l_child; print place (.jump "jae" (ifLabel (← get).label_counter))
          | .IF => printOperation place.condition left; r_child
          | .ELSE =>
              let cur_label_num := (← get).label_counter
              modify fun s => { s with label_counter := s.label_counter + 1 }
              l_child
              print place (.jump "jmp" (elseLabel cur_label_num))
              print place (.label (ifLabel cur_label_num))
              r_child
              print place (.label (elseLabel cur_label_num))
          | .VAR =>
              let name ← var_name env left
              let (_, vars_before) ← getVariablePos names place vars_before name
              r_child
              let (position, _) ← getVariablePos names place vars_before name
              print place (.variable "pop" name position)
          | .IN => setPrevious IN; l_child
          | .OUT => setPrevious OUT; l_child
          | .PARAM =>
              let name ← var_name env left
              let (_, vars_before) ← getVariablePos names place vars_before name
              printParam names place vars_before name
              r_child
          | .SIN => l_child; print place (.instruction "sin")
          | .COS => l_child; print place (.instruction "sin")
          | .SQRT => l_child; print place (.instruction "sqr")
          | _ => return
      | .NAME_T, _ =>
          print place (.label (← var_name env (node type value left right)))
          print place (.instruction "pop rcx")
          setPrevious FUNC
          l_child
      | .NUM_T, .dbl_val bits => print place (.push_number bits)
      | .VAR_T, _ =>
          let name ← var_name env (node type value left right)
          let (_, vars_before) ← getVariablePos names place vars_before name
          let (position, _) ← getVariablePos names place vars_before name
          print place (.variable "push" name position)
      | _, _ => throw .wrongMember

/-- `PrintCmdsInFile` with the tables as they are made. -/
def printCmdsInFile (root : TreeNode) : Gen σ Unit := do
  print {} (.call "main")
  print {} (.instruction "hlt")
  printOperation names env ({} : Place) root
  print {} (.instruction "end")

end

/-- The state at the begin of `PrintCmdsInFile`. -/
def startState : GenState Namespaces := { names := { namespace_offset := [0] } }

end CompilerLab.Language
