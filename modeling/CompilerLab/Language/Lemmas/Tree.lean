import CompilerLab.Language.Lemmas.Parser
import CompilerLab.Language.Tree

/-!
# The trees the parser builds
-/

namespace CompilerLab.Language

open Options TreeNode

variable {token_array : List Token}

/-! ## Expressions -/

theorem getNumOrName_simple {p q : Nat} {tree : TreeNode} (h : getNumOrName token_array p = .ok (tree, q)) : Simple tree := by
  simp only [getNumOrName, bind_ok] at h
  obtain ⟨token, -, h⟩ := h
  split_ifs at h with hnum hvar
  · cases h
    exact .number _
  · cases h
    exact .variable _
  · cases h
    exact .null

theorem getNumOrName_named {p q : Nat} {tree named : TreeNode} {type : Types} (h : getNumOrName token_array p = .ok (tree, q))
    (hnamed : setType type tree = .ok named) : ∃ name : Values, name.IsLiteral ∧ named = node type name null null := by
  simp only [getNumOrName, bind_ok] at h
  obtain ⟨token, -, h⟩ := h
  split_ifs at h with hnum hvar
  · cases h
    cases hnamed
    exact ⟨.dbl_val _, trivial, rfl⟩
  · cases h
    cases hnamed
    exact ⟨.var_name _, trivial, rfl⟩
  · cases h
    cases hnamed

section
variable {operators : List Options} (hoperators : operators ⊆ simpleOperators) {operand : Nat → Result}
  (hoperand : ∀ {p q tree}, operand p = .ok (tree, q) → Simple tree)
include hoperators hoperand

theorem operationLoop_simple {fuel p q : Nat} {top tree : TreeNode}
    (h : operationLoop token_array operators operand fuel top p = .ok (tree, q)) (htop : Simple top) : Simple tree := by
  induction fuel generalizing p top with
  | zero => cases h
  | succ fuel ih =>
      simp only [operationLoop, bind_ok] at h
      obtain ⟨token, -, h⟩ := h
      split at h
      case h_1 last_op hop =>
        simp only [bind_ok] at h
        obtain ⟨⟨right, r⟩, hright, hrest⟩ := h
        exact ih hrest (.operation (hoperators (List.mem_of_find?_eq_some hop)) htop (hoperand hright))
      case h_2 =>
        cases h
        exact htop

theorem getLevel_simple {fuel p q : Nat} {tree : TreeNode} (h : getLevel token_array operators operand fuel p = .ok (tree, q)) :
    Simple tree := by
  simp only [getLevel, bind_ok] at h
  obtain ⟨⟨top, r⟩, htop, hloop⟩ := h
  exact operationLoop_simple hoperators hoperand hloop (hoperand htop)

end

theorem getExpression_simple {bracketExp : Nat → Result} (hoperand : ∀ {p q tree}, bracketExp p = .ok (tree, q) → Simple tree)
    {fuel p q : Nat} {tree : TreeNode} (h : getExpression token_array bracketExp fuel p = .ok (tree, q)) : Simple tree := by
  have hsum : ∀ {p q tree}, getAddSub token_array bracketExp fuel p = .ok (tree, q) → Simple tree :=
    getLevel_simple (by decide) (getLevel_simple (by decide) (getLevel_simple (by decide) hoperand))
  have hcomparisons : comparisons ⊆ simpleOperators := by decide
  simp only [getExpression, bind_ok] at h
  obtain ⟨⟨left, r⟩, hleft, token, -, h⟩ := h
  split at h
  case h_1 operation hop =>
    simp only [bind_ok] at h
    obtain ⟨⟨right, s⟩, hright, h⟩ := h
    cases h
    exact .operation (hcomparisons (List.mem_of_find?_eq_some hop)) (hsum hleft) (hsum hright)
  case h_2 =>
    cases h
    exact hsum hleft

theorem getBracketExp_simple {fuel p q : Nat} {tree : TreeNode} (h : getBracketExp token_array fuel p = .ok (tree, q)) :
    Simple tree := by
  induction fuel generalizing p q tree with
  | zero => cases h
  | succ fuel ih =>
      have hfunctions : [SIN, COS, SQRT] ⊆ simpleOperators := by decide
      simp only [getBracketExp, bind_ok] at h
      obtain ⟨token, -, h⟩ := h
      split_ifs at h with hopen
      · simp only [bind_ok] at h
        obtain ⟨⟨sub_node, r⟩, hsub, close, -, h⟩ := h
        split_ifs at h
        cases h
        exact getExpression_simple ih hsub
      · simp only [getSpecOperations, bind_ok] at h
        obtain ⟨token, -, h⟩ := h
        split at h
        case h_1 operation hop =>
          simp only [bind_ok] at h
          obtain ⟨⟨sub_node, r⟩, hsub, h⟩ := h
          cases h
          exact .operation (hfunctions (List.mem_of_find?_eq_some hop)) (ih hsub) .null
        case h_2 => exact getNumOrName_simple h

/-! ## Variables, calls and parameters -/

section
variable {param : Nat → Result} (hparam : ∀ {p q tree}, param p = .ok (tree, q) → Simple tree)
include hparam

theorem getCall_simple {var : Nat → Result} (hvar : ∀ {p q tree}, var p = .ok (tree, q) → Simple tree) {p q : Nat}
    {tree : TreeNode} (h : getCall token_array param var p = .ok (tree, q)) : Simple tree := by
  simp only [getCall, bind_ok] at h
  obtain ⟨token, -, h⟩ := h
  split_ifs at h with hcall
  · simp only [bind_ok] at h
    obtain ⟨⟨name, r⟩, hname, ⟨params, s⟩, hparams, named, hnamed, h⟩ := h
    obtain ⟨value, hvalue, rfl⟩ := getNumOrName_named hname hnamed
    cases h
    exact .call hvalue (hparam hparams)
  · simp only [getInOut, bind_ok] at h
    obtain ⟨token, -, h⟩ := h
    split_ifs at h with hin hout
    · simp only [bind_ok] at h
      obtain ⟨⟨params, r⟩, hparams, h⟩ := h
      cases h
      exact .operation (by decide) (hparam hparams) .null
    · simp only [bind_ok] at h
      obtain ⟨⟨params, r⟩, hparams, h⟩ := h
      cases h
      exact .operation (by decide) (hparam hparams) .null
    · exact hvar h

theorem getVar_simple {fuel p q : Nat} {tree : TreeNode} (h : getVar token_array param fuel p = .ok (tree, q)) :
    Simple tree := by
  induction fuel generalizing p q tree with
  | zero => cases h
  | succ fuel ih =>
      simp only [getVar, bind_ok] at h
      obtain ⟨token, -, h⟩ := h
      split_ifs at h with hvar
      · simp only [bind_ok] at h
        obtain ⟨⟨name, r⟩, hname, ⟨val, s⟩, hval, h⟩ := h
        cases h
        exact .operation (by decide) (getNumOrName_simple hname) (getCall_simple hparam ih hval)
      · exact getExpression_simple getBracketExp_simple h

end

theorem getParam_simple {fuel p q : Nat} {tree : TreeNode} (h : getParam token_array fuel p = .ok (tree, q)) : Simple tree := by
  induction fuel generalizing p q tree with
  | zero => cases h
  | succ fuel ih =>
      simp only [getParam, bind_ok] at h
      obtain ⟨token, -, token', -, h⟩ := h
      split_ifs at h with hclose
      all_goals first
        | (cases h
           exact .null)
        | (simp only [bind_ok] at h
           obtain ⟨⟨param_node, r⟩, hvar, ⟨next, s⟩, hnext, h⟩ := h
           cases h
           exact .operation (by decide) (getVar_simple ih hvar) (ih hnext))

/-! ## Statements -/

theorem getRet_block {fuel p q : Nat} {tree : TreeNode} (h : getRet token_array fuel p = .ok (tree, q)) : Block tree := by
  simp only [getRet, bind_ok] at h
  obtain ⟨token, -, h⟩ := h
  split_ifs at h with hret
  · simp only [bind_ok] at h
    obtain ⟨⟨params, r⟩, hparams, h⟩ := h
    cases h
    exact .ret (getParam_simple hparams)
  · exact .simple (getCall_simple getParam_simple (getVar_simple getParam_simple) h)

theorem getFunction_block {statement : Nat → Result} (hstatement : ∀ {p q tree}, statement p = .ok (tree, q) → Block tree)
    {fuel p q : Nat} {tree : TreeNode} (h : getFunction token_array fuel statement p = .ok (tree, q)) : Block tree := by
  simp only [getFunction, bind_ok] at h
  obtain ⟨token, -, h⟩ := h
  split_ifs at h with hfunc
  · simp only [getFuncHeader, bind_ok] at h
    obtain ⟨⟨header, r⟩, ⟨⟨name, r'⟩, hname, named, hnamed, ⟨params, r''⟩, hparams, headed, hheaded, hheader⟩, ⟨body, s⟩, hbody, h⟩ := h
    obtain ⟨value, hvalue, rfl⟩ := getNumOrName_named hname hnamed
    cases hheaded
    cases hheader
    cases h
    exact .declaration hvalue (getParam_simple hparams) (hstatement hbody)
  · simp only [getIfElse, bind_ok] at h
    obtain ⟨token, -, h⟩ := h
    split_ifs at h with hif
    · simp only [bind_ok] at h
      obtain ⟨⟨condition, r⟩, hcondition, ⟨if_body, s⟩, hbody, token', -, h⟩ := h
      split_ifs at h with helse
      · cases h
        exact .simple .null
      · simp only [bind_ok] at h
        obtain ⟨⟨else_body, r'⟩, helse_body, h⟩ := h
        cases h
        exact .conditional (getExpression_simple getBracketExp_simple hcondition) (hstatement hbody) (hstatement helse_body)
    · simp only [getWhile, bind_ok] at h
      obtain ⟨token, -, h⟩ := h
      split_ifs at h with hwhile
      · simp only [bind_ok] at h
        obtain ⟨⟨condition, r⟩, hcondition, ⟨body, s⟩, hbody, h⟩ := h
        cases h
        exact .loop (getExpression_simple getBracketExp_simple hcondition) (hstatement hbody)
      · exact getRet_block h

theorem getStatement_block {fuel p q : Nat} {tree : TreeNode} (h : getStatement token_array fuel p = .ok (tree, q)) :
    Block tree := by
  induction fuel generalizing p q tree with
  | zero => cases h
  | succ fuel ih =>
      simp only [getStatement, bind_ok] at h
      obtain ⟨token, -, h⟩ := h
      split_ifs at h with hterm hsemi hclose
      · cases h
        exact .simple .null
      · exact ih h
      · cases h
        exact .simple .null
      · simp only [bind_ok] at h
        obtain ⟨⟨left_child, r⟩, hitem, ⟨next, s⟩, hnext, h⟩ := h
        cases h
        exact .statement (getFunction_block ih hitem) (ih hnext)

theorem getGrammar_block {fuel : Nat} {root : TreeNode} (h : getGrammar token_array fuel = .ok root) : Block root := by
  simp only [getGrammar, bind_ok] at h
  obtain ⟨⟨tree, q⟩, hstatement, token, -, h⟩ := h
  cases h
  exact getStatement_block hstatement

end CompilerLab.Language
