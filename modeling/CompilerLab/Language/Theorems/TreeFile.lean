import CompilerLab.Language.Lemmas.TreeFile
import CompilerLab.Language.Theorems.Assembly

/-!
# The backend gets the tree of the frontend

The tree the backend makes of the file differs from the one that was written in the types of the names of called functions, which
the generator does not look at.
-/

namespace CompilerLab.Language

open Options TreeNode Asm

variable {lg : BitVec 64 → Str} {strtod : Str → BitVec 64} {σ : Type}

/-! ## Reading -/

theorem readTree_of_printed {tree : TreeNode} (h : Filed tree) (hfits : tree.Fits lg strtod) (hnull : tree ≠ null) :
    ∃ text, recPrintNode lg tree = some text ∧
      readTree strtod text = if text.length < MAX_SRC_LEN ∧ tree.fileTokens.length < MAX_TOKENS then some tree.asRead else none := by
  obtain ⟨text, htext, htokens⟩ := h.printed hfits
  rw [printChild, if_neg hnull] at htext
  refine ⟨text, htext, ?_⟩
  have hlexed := htokens [] _ Lexed.nil
  rw [List.append_nil] at hlexed
  obtain ⟨fuel, hfuel⟩ := hlexed
  have hfill : fillTokens strtod (text.length + 1) text = some (tree.fileTokens ++ [.operation TERMINATION_SYM]) :=
    fillTokens_of_length hfuel (Nat.lt_succ_self _)
  have hcount : (tree.fileTokens ++ [FileToken.operation TERMINATION_SYM]).length ≤ MAX_TOKENS ↔ tree.fileTokens.length < MAX_TOKENS := by
    rw [List.length_append]
    exact Nat.succ_le_iff
  simp only [readTree, fillTokensArray, Option.bind_eq_bind, hfill, Option.bind_some, hcount]
  split_ifs with hroom
  · have hdepth : tree.fileTokens.length ≤ (tree.fileTokens ++ [FileToken.operation TERMINATION_SYM]).length + 1 := by
      rw [List.length_append]
      omega
    have hread := @Filed.read _ h _ [.operation TERMINATION_SYM] hdepth
    simp only [Option.pure_def, Option.bind_some, hread]
  · rfl

/-! ## The code of what is read -/

theorem var_name_children (env : Environment) (type : Types) (value : Values) (left right left' right' : TreeNode) :
    (var_name env (node type value left right) : Gen σ String) = var_name env (node type value left' right') := by
  cases type <;> cases value <;> rfl

theorem var_name_asRead (env : Environment) (tree : TreeNode) : (var_name env tree.asRead : Gen σ String) = var_name env tree := by
  unfold asRead
  split
  · rfl
  · exact var_name_children env _ _ _ _ _ _
  · rfl

theorem printOperation_asRead (names : Names σ) (env : Environment) (place : Place) (tree : TreeNode) :
    printOperation names env place tree.asRead = printOperation names env place tree := by
  induction tree generalizing place with
  | null => rfl
  | node type value left right ihleft ihright =>
      unfold asRead
      split
      · next name left' right' params heq =>
          injection heq with htype hvalue hleft hright
          subst htype hvalue hleft hright
          have hname : (var_name env (node .NAME_T name left' right') : Gen σ String) =
              var_name env (node .NAME_SHORT_T name left' right') := by cases name <;> rfl
          simp only [printOperation, ihright, hname]
      · next type' value' left' right' hother heq =>
          injection heq with htype hvalue hleft hright
          subst htype hvalue hleft hright
          simp only [printOperation, ihleft, ihright, var_name_asRead, var_name_children env type value left.asRead right.asRead left right]
      · next heq => cases heq

theorem printCmdsInFile_asRead (names : Names σ) (env : Environment) (tree : TreeNode) :
    printCmdsInFile names env tree.asRead = printCmdsInFile names env tree := by
  simp only [printCmdsInFile, printOperation_asRead]

/-! ## From the frontend to the backend -/

theorem Expr.simple (e : Expr) : Simple e.tree := by
  induction e with
  | number bits => exact .number bits
  | «variable» name => exact .variable name
  | binary op left right ihleft ihright =>
      refine .operation ?_ ihleft ihright
      cases op <;> decide
  | unary op operand ih =>
      refine .operation ?_ ih .null
      cases op <;> decide

theorem simple_params (names : List String) : Simple (paramsTree names) := by
  induction names with
  | nil => exact .null
  | cons name names ih => exact .operation (by decide) (.variable name) ih

theorem simple_call (func_name : String) (args : List String) : Simple (callTree func_name args) := .call trivial (simple_params args)

theorem Stmt.block (body : Stmt) : Block body.tree := by
  induction body with
  | skip => exact .simple .null
  | seq _ _ ihfirst ihrest => exact .statement ihfirst ihrest
  | set name value => exact .simple (.operation (by decide) (.variable name) value.simple)
  | setCall name func_name args => exact .simple (.operation (by decide) (.variable name) (simple_call func_name args))
  | call func_name args => exact .simple (simple_call func_name args)
  | input names => exact .simple (.operation (by decide) (simple_params names) .null)
  | output names => exact .simple (.operation (by decide) (simple_params names) .null)
  | cond comparison left right if_body else_body ihif ihelse =>
      refine .conditional (.operation ?_ left.simple right.simple) ihif ihelse
      cases comparison <;> decide
  | ret names => exact .ret (simple_params names)

theorem Program.block (p : Program) : Block p.tree := by
  induction p with
  | nil => exact .simple .null
  | cons f p ih => exact .statement (.declaration trivial (simple_params f.params) f.body.block) ih

end CompilerLab.Language
