import CompilerLab.Asm.Runs
import CompilerLab.Language.Labels
import CompilerLab.Language.Syntax

/-!
# The code of a program

The lines that are printed for a program, the commands they are, and where these stand in memory.
-/

namespace CompilerLab.Language

open Options TreeNode Asm

/-! ## The lines -/

def UnaryOp.text : UnaryOp → String
  | SIN => "sin"
  | SQRT => "sqr"

/-- Two parts and a line; the second part is printed with the names the first one leaves. -/
def inOrder (first : List String → List Line) (tree : TreeNode) (second : List String → List Line) (last : Line) (names : List String) :
    List Line :=
  first names ++ (second (tree.namesAfter names) ++ [last])

def Expr.code : Expr → List String → List Line
  | number bits, _ => [.push_number bits]
  | .variable name, names => [.variable "push" name ((addName names name).idxOf name)]
  | binary .ADD left right, names => inOrder left.code left.tree right.code (.instruction "add") names
  | binary .SUB left right, names => inOrder right.code right.tree left.code (.instruction "sub") names
  | binary .MUL left right, names => inOrder left.code left.tree right.code (.instruction "mul") names
  | binary .DIV left right, names => inOrder right.code right.tree left.code (.instruction "div") names
  | unary op operand, names => operand.code names ++ [.instruction op.text]

/-- The operands of a comparison and its jump to a label. -/
def Comparison.code (left right : Expr) (label : String) (names : List String) : Comparison → List Line
  | IS_EE => inOrder left.code left.tree right.code (.jump "jne" label) names
  | IS_NE => inOrder left.code left.tree right.code (.jump "je" label) names
  | IS_BT => inOrder right.code right.tree left.code (.jump "jae" label) names

/-- The lines for each of some parameters. -/
def paramsCode (lines : String → Nat → List Line) : List String → List String → List Line
  | [], _ => []
  | name :: params, names => lines name ((addName names name).idxOf name) ++ paramsCode lines params (addName names name)

def popLine (name : String) (slot : Nat) : List Line := [.variable "pop" name slot]

def pushLine (name : String) (slot : Nat) : List Line := [.variable "push" name slot]

def inLines (name : String) (slot : Nat) : List Line := [.instruction "in", .variable "pop" name slot]

def outLines (name : String) (slot : Nat) : List Line := [.variable "push" name slot, .instruction "out"]

def callCode (func_name : String) (args names : List String) : List Line :=
  paramsCode pushLine args names ++
    [.shift "add" (names.length + 1), .call func_name, .shift "sub" (names.length + 1)]

def Stmt.code : Stmt → List String → Nat → List Line
  | skip, _, _ => []
  | seq first rest, names, n => first.code names n ++ rest.code (first.tree.namesAfter names) (n + first.tree.conditionals)
  | set name value, names, _ => value.code (addName names name) ++ popLine name ((addName names name).idxOf name)
  | setCall name func_name args, names, _ =>
      callCode func_name args (addName names name) ++ popLine name ((addName names name).idxOf name)
  | call func_name args, names, _ => callCode func_name args names
  | input params, names, _ => paramsCode inLines params names
  | output params, names, _ => paramsCode outLines params names
  | cond comparison left right if_body else_body, names, n =>
      let after := (OP_NODE comparison.option left.tree right.tree).namesAfter names
      comparison.code left right (ifLabel n) names ++
        (if_body.code after (n + 1) ++ .jump "jmp" (elseLabel n) :: .label (ifLabel n) ::
          (else_body.code (if_body.tree.namesAfter after) (n + 1 + if_body.tree.conditionals) ++ [.label (elseLabel n)]))
  | ret params, names, _ =>
      .instruction "pop rcx" :: (paramsCode pushLine params names ++ [.instruction "push rcx", .instruction "ret"])

def Func.code (f : Func) (n : Nat) : List Line :=
  .label f.name :: .instruction "pop rcx" ::
    (paramsCode popLine f.params [] ++ .instruction "push rcx" :: f.body.code f.paramNames n)

def Program.code : Program → Nat → List Line
  | [], _ => []
  | f :: p, n => f.code n ++ code p (n + f.tree.conditionals)

/-- The text of a program. -/
def Program.lines (p : Program) : List Line :=
  .call "main" :: .instruction "hlt" :: (p.code 0 ++ [.instruction "end"])

/-! ## The commands -/

/-- The command of a line that is one. -/
def instructionInstr (text : String) : List Instr :=
  if text = "push rcx" then [.arg .PUSH none (some 2) false]
  else if text = "pop rcx" then [.arg .POP none (some 2) false]
  else ((Commands.table.find? fun entry => entry.1 = text.toList).map fun entry => Instr.plain entry.2).toList

/-- The jump with the name. -/
def jumpInstr (text : String) (target : Elem) : List Instr :=
  ((Commands.table.find? fun entry => entry.1 = text.toList).map fun entry => Instr.jump entry.2 target).toList

/-- A program in memory: what a number is pushed as, where the labels are, and the bytes. -/
structure Image where
  d : Doubles
  exact : d.Exact
  number : BitVec 64 → Elem
  labelPos : String → Int
  cmds : Int → Byte
  cmds_amount : Int
  bounded : cmds_amount < 2 ^ 30

variable (m : Image)

/-- The commands of a line. -/
def Line.instrs : Line → List Instr
  | instruction text => instructionInstr text
  | push_number bits => [.arg .PUSH (some (m.number bits)) none false]
  | .variable text _ slot => [.arg (if text = "push" then .PUSH else .POP) (some (m.d.ofInt slot)) (some 0) true]
  | shift text amount =>
      [.arg .PUSH (some (m.d.ofInt amount)) none false, .arg .PUSH none (some 0) false, .plain (if text = "add" then .ADD else .SUB),
        .arg .POP none (some 0) false]
  | call name => [.jump .CALL (m.d.ofInt (m.labelPos name))]
  | jump text name => jumpInstr text (m.d.ofInt (m.labelPos name))
  | label _ => []
  | introduce _ _ => []

/-- How many bytes the lines take. -/
def width (lines : List Line) : Nat := bytes (lines.flatMap (Line.instrs m))

/-- The commands of the lines stand in memory from a position on, and the labels are where they are defined. -/
def Placed : Int → List Line → Prop
  | _, [] => True
  | pos, line :: lines => 0 < pos ∧ pos + bytes (line.instrs m) ≤ m.cmds_amount ∧ Loaded m.cmds pos (line.instrs m) ∧
      (∀ name, line = .label name → m.labelPos name = pos) ∧ Placed (pos + bytes (line.instrs m)) lines

instance (line : Line) (pos : Int) : Decidable (∀ name, line = .label name → m.labelPos name = pos) :=
  match line with
  | .label name => decidable_of_iff (m.labelPos name = pos) ⟨fun h _ heq => by injection heq with heq; rwa [← heq], fun h => h name rfl⟩
  | .instruction _ | .push_number _ | .variable _ _ _ | .shift _ _ | .call _ | .jump _ _ | .introduce _ _ =>
      .isTrue fun _ heq => by cases heq

instance decidablePlaced : ∀ (pos : Int) (lines : List Line), Decidable (Placed m pos lines)
  | _, [] => .isTrue trivial
  | pos, line :: lines =>
      have := decidablePlaced (pos + bytes (line.instrs m)) lines
      inferInstanceAs (Decidable (0 < pos ∧ pos + bytes (line.instrs m) ≤ m.cmds_amount ∧ Loaded m.cmds pos (line.instrs m) ∧
        (∀ name, line = .label name → m.labelPos name = pos) ∧ Placed m (pos + bytes (line.instrs m)) lines))

end CompilerLab.Language
