import CompilerLab.Language.Lemmas.Parser

/-!
# Enough fuel

On every phrase of the grammar its parser returns once it has enough fuel.
-/

namespace CompilerLab.Language

open Options TreeNode

variable {token_array : List Token}

/-- The parser of a phrase; `param` is the fuel of the parameters in it, and of the operands of a level. -/
@[simp] def run (token_array : List Token) : Phrase → Nat → Nat → Nat → Result
  | .operand, _, fuel => getBracketExp token_array fuel
  | .level operators part, inner, fuel => getLevel token_array operators (run token_array part inner inner) fuel
  | .expression, _, fuel => getExpression token_array (getBracketExp token_array fuel) fuel
  | .value, inner, fuel => getCall token_array (getParam token_array inner) (getVar token_array (getParam token_array inner) fuel)
  | .argument, inner, fuel => getVar token_array (getParam token_array inner) fuel
  | .arguments, _, fuel => fun p => do
      let token ← curToken token_array p
      if token.op_val = some .CLOSE_BR then return (null, p + 1)
      else
        let (param_node, cur_token_id) ← getVar token_array (getParam token_array fuel) fuel p
        let (next_param_node, cur_token_id) ← getParam token_array fuel cur_token_id
        return (OP_NODE PARAM param_node next_param_node, cur_token_id)
  | .parameters, _, fuel => getParam token_array fuel
  | .item, _, fuel => getFunction token_array fuel (getStatement token_array fuel)
  | .block, _, fuel => getStatement token_array fuel

/-- With enough fuel the parser of the phrase goes from `p` to `q`. -/
def Parses (token_array : List Token) (phrase : Phrase) (p q : Nat) : Prop :=
  ∃ bound, ∀ inner ≥ bound, ∀ fuel ≥ bound, ∃ tree, run token_array phrase inner fuel p = .ok (tree, q)

theorem curToken_ok {p : Nat} {token : Token} (h : token_array[p]? = some token) : curToken token_array p = .ok token :=
  curToken_eq_ok.2 h

@[simp] theorem ok_bind {α β : Type} (a : α) (f : α → Except Fault β) : (.ok a >>= f : Except Fault β) = f a := rfl

theorem find?_of_isOneOf {token : Token} {options : List Options} (h : token.IsOneOf options) :
    ∃ op, options.find? (fun op => token.op_val = some op) = some op := by
  obtain ⟨op, hop, heq⟩ := h
  exact Option.isSome_iff_exists.1 (List.find?_isSome.2 ⟨op, hop, by simpa using heq⟩)

theorem find?_of_not_isOneOf {token : Token} {options : List Options} (h : ¬token.IsOneOf options) :
    options.find? (fun op => token.op_val = some op) = none :=
  List.find?_eq_none.2 fun op hop heq => h ⟨op, hop, by simpa using heq⟩

theorem getNumOrName_literal {p : Nat} (h : At token_array p Token.IsLiteral) :
    ∃ tree, getNumOrName token_array p = .ok (tree, p + 1) ∧ tree ≠ null := by
  obtain ⟨token, htoken, hliteral⟩ := h
  simp only [getNumOrName, curToken_ok htoken, ok_bind]
  by_cases hnum : token.type = .NUM_T
  · rw [if_pos hnum]
    exact ⟨DIGIT_NODE token.value, rfl, by simp [DIGIT_NODE]⟩
  · rw [if_neg hnum, if_pos (hliteral.resolve_left hnum)]
    exact ⟨VAR_NODE token.name, rfl, by simp [VAR_NODE]⟩

theorem getNumOrName_other {p : Nat} (h : At token_array p (¬·.IsLiteral)) : getNumOrName token_array p = .ok (null, p) := by
  obtain ⟨token, htoken, hliteral⟩ := h
  simp only [getNumOrName, curToken_ok htoken, ok_bind]
  rw [if_neg fun hnum => hliteral (.inl hnum), if_neg fun hvar => hliteral (.inr hvar)]
  rfl

/-! ### Expressions -/

theorem getSpecOperations_function {token : Token} {p : Nat} (htoken : token_array[p]? = some token) (h : token.IsFunction)
    {bracketExp : Nat → Result} {sub_node : TreeNode} {q : Nat} (hsub : bracketExp (p + 1) = .ok (sub_node, q)) :
    ∃ tree, getSpecOperations token_array bracketExp p = .ok (tree, q) := by
  obtain ⟨op, hop, hcheck⟩ := h
  have hfind : ([SIN, COS, SQRT].find? fun op => token.CHECK_OP_T op).isSome :=
    List.find?_isSome.2 ⟨op, hop, by simpa using hcheck⟩
  obtain ⟨f, hf⟩ := Option.isSome_iff_exists.1 hfind
  exact ⟨OP_NODE f sub_node null, by simp only [getSpecOperations, curToken_ok htoken, ok_bind, hf, hsub]; rfl⟩

theorem getSpecOperations_other {token : Token} {p : Nat} (htoken : token_array[p]? = some token) (h : ¬token.IsFunction)
    {bracketExp : Nat → Result} : getSpecOperations token_array bracketExp p = getNumOrName token_array p := by
  have hfind : [SIN, COS, SQRT].find? (fun op => token.CHECK_OP_T op) = none :=
    List.find?_eq_none.2 fun op hop hcheck => h ⟨op, hop, by simpa using hcheck⟩
  simp only [getSpecOperations, curToken_ok htoken, ok_bind, hfind]

/-- The loop goes to the same token whatever tree it has built. -/
theorem operationLoop_tree {operators : List Options} {operand : Nat → Result} {fuel p q : Nat} {top tree : TreeNode}
    (h : operationLoop token_array operators operand fuel top p = .ok (tree, q)) (top' : TreeNode) :
    ∃ tree', operationLoop token_array operators operand fuel top' p = .ok (tree', q) := by
  induction fuel generalizing p top top' with
  | zero => cases h
  | succ fuel ih =>
      simp only [operationLoop, bind_ok, curToken_eq_ok] at h
      obtain ⟨token, htoken, h⟩ := h
      simp only [operationLoop, curToken_ok htoken, ok_bind]
      split at h
      case h_1 last_op hop =>
        simp only [bind_ok] at h
        obtain ⟨⟨right, r⟩, hright, hrest⟩ := h
        simp only [hright, ok_bind]
        exact ih hrest _
      case h_2 hop =>
        cases h
        exact ⟨top', rfl⟩

theorem getLevel_last {operators : List Options} {operand : Nat → Result} {fuel p q : Nat} {top : TreeNode}
    (hoperand : operand p = .ok (top, q)) (hq : At token_array q (¬·.IsOneOf operators)) :
    ∃ tree, getLevel token_array operators operand (fuel + 1) p = .ok (tree, q) := by
  obtain ⟨token, htoken, hop⟩ := hq
  simp only [getLevel, hoperand, ok_bind, operationLoop, curToken_ok htoken, find?_of_not_isOneOf hop]
  exact ⟨top, rfl⟩

theorem getLevel_operator {operators : List Options} {operand : Nat → Result} {fuel p q r : Nat} {top : TreeNode}
    (hoperand : operand p = .ok (top, q)) (hq : At token_array q (·.IsOneOf operators)) {rest : TreeNode}
    (hrest : getLevel token_array operators operand fuel (q + 1) = .ok (rest, r)) :
    ∃ tree, getLevel token_array operators operand (fuel + 1) p = .ok (tree, r) := by
  obtain ⟨token, htoken, hop⟩ := hq
  obtain ⟨op, hfind⟩ := find?_of_isOneOf hop
  simp only [getLevel, bind_ok] at hrest
  obtain ⟨⟨right, s⟩, hright, hloop⟩ := hrest
  simp only [getLevel, hoperand, ok_bind, operationLoop, curToken_ok htoken, hfind, hright]
  exact operationLoop_tree hloop _

theorem getExpression_sum {bracketExp : Nat → Result} {fuel p q : Nat} {left : TreeNode}
    (hsum : getAddSub token_array bracketExp fuel p = .ok (left, q)) (hq : At token_array q (¬·.IsOneOf comparisons)) :
    getExpression token_array bracketExp fuel p = .ok (left, q) := by
  obtain ⟨token, htoken, hop⟩ := hq
  simp only [getExpression, hsum, ok_bind, curToken_ok htoken, find?_of_not_isOneOf hop]
  rfl

theorem getExpression_comparison {bracketExp : Nat → Result} {fuel p q r : Nat} {left right : TreeNode}
    (hsum : getAddSub token_array bracketExp fuel p = .ok (left, q)) (hq : At token_array q (·.IsOneOf comparisons))
    (hright : getAddSub token_array bracketExp fuel (q + 1) = .ok (right, r)) :
    ∃ tree, getExpression token_array bracketExp fuel p = .ok (tree, r) := by
  obtain ⟨token, htoken, hop⟩ := hq
  obtain ⟨op, hfind⟩ := find?_of_isOneOf hop
  simp only [getExpression, hsum, ok_bind, curToken_ok htoken, hfind, hright]
  exact ⟨OP_NODE op left right, rfl⟩

theorem Token.CHECK_OP_T.other {token : Token} {op : Options} (h : token.CHECK_OP_T op) (op' : Options) (hne : op ≠ op') :
    ¬token.CHECK_OP_T op' :=
  fun h' => hne (Option.some.inj (h.2.symm.trans h'.2))

theorem Token.IsLiteral.not_isFunction {token : Token} (h : token.IsLiteral) : ¬token.IsFunction := by
  rintro ⟨op, -, htype, -⟩
  obtain hnum | hvar := h
  · simp [hnum] at htype
  · simp [hvar] at htype

namespace Parses

/-- One unit of fuel for the call itself. -/
theorem of_succ {phrase : Phrase} {p q : Nat} (bound : Nat)
    (h : ∀ inner ≥ bound, ∀ fuel ≥ bound, ∃ tree, run token_array phrase inner (fuel + 1) p = .ok (tree, q)) :
    Parses token_array phrase p q := by
  refine ⟨bound + 1, fun inner hinner fuel hfuel => ?_⟩
  obtain ⟨n, rfl⟩ : ∃ n, fuel = n + 1 := ⟨fuel - 1, by omega⟩
  exact h inner (by omega) n (by omega)

theorem and {phrase phrase' : Phrase} {p q r s : Nat} (h : Parses token_array phrase p q) (h' : Parses token_array phrase' r s) :
    ∃ bound, ∀ inner ≥ bound, ∀ fuel ≥ bound, (∃ tree, run token_array phrase inner fuel p = .ok (tree, q)) ∧
      ∃ tree, run token_array phrase' inner fuel r = .ok (tree, s) := by
  obtain ⟨bound, h⟩ := h
  obtain ⟨bound', h'⟩ := h'
  refine ⟨max bound bound', fun inner hinner fuel hfuel => ⟨h inner ?_ fuel ?_, h' inner ?_ fuel ?_⟩⟩ <;> omega

theorem brackets {p q : Nat} (hopen : At token_array p (·.op_val = some OPEN_BR)) (hexp : Parses token_array .expression (p + 1) q)
    (hclose : At token_array q (·.op_val = some CLOSE_BR)) : Parses token_array .operand p (q + 1) := by
  obtain ⟨token, htoken, hop⟩ := hopen
  obtain ⟨close, hclose, hbr⟩ := hclose
  obtain ⟨bound, hexp⟩ := hexp
  refine of_succ bound fun inner _ fuel hfuel => ?_
  obtain ⟨sub_node, hsub⟩ := hexp fuel hfuel fuel hfuel
  simp only [run] at hsub
  simp only [run, getBracketExp, curToken_ok htoken, ok_bind, if_pos hop, hsub, curToken_ok hclose, if_pos hbr]
  exact ⟨sub_node, rfl⟩

theorem function {p q : Nat} (hp : At token_array p (fun token => token.op_val ≠ some OPEN_BR ∧ token.IsFunction))
    (hoperand : Parses token_array .operand (p + 1) q) : Parses token_array .operand p q := by
  obtain ⟨token, htoken, hop, hfunction⟩ := hp
  obtain ⟨bound, hoperand⟩ := hoperand
  refine of_succ bound fun inner _ fuel hfuel => ?_
  obtain ⟨sub_node, hsub⟩ := hoperand fuel hfuel fuel hfuel
  simp only [run, getBracketExp, curToken_ok htoken, ok_bind, if_neg hop]
  exact getSpecOperations_function htoken hfunction hsub

theorem literal {p : Nat} (hp : At token_array p (fun token => token.op_val ≠ some OPEN_BR ∧ token.IsLiteral)) :
    Parses token_array .operand p (p + 1) := by
  obtain ⟨token, htoken, hop, hliteral⟩ := hp
  obtain ⟨tree, htree, -⟩ := getNumOrName_literal ⟨token, htoken, hliteral⟩
  refine of_succ 0 fun inner _ fuel _ => ⟨tree, ?_⟩
  simp only [run, getBracketExp, curToken_ok htoken, ok_bind, if_neg hop]
  rw [getSpecOperations_other htoken hliteral.not_isFunction, htree]

theorem noOperand {p : Nat}
    (hp : At token_array p (fun token => token.op_val ≠ some OPEN_BR ∧ ¬token.IsFunction ∧ ¬token.IsLiteral)) :
    Parses token_array .operand p p := by
  obtain ⟨token, htoken, hop, hfunction, hliteral⟩ := hp
  refine of_succ 0 fun inner _ fuel _ => ⟨null, ?_⟩
  simp only [run, getBracketExp, curToken_ok htoken, ok_bind, if_neg hop]
  rw [getSpecOperations_other htoken hfunction, getNumOrName_other ⟨token, htoken, hliteral⟩]

theorem last {operators : List Options} {part : Phrase} {p q : Nat} (hpart : Parses token_array part p q)
    (hq : At token_array q (¬·.IsOneOf operators)) : Parses token_array (.level operators part) p q := by
  obtain ⟨bound, hpart⟩ := hpart
  refine of_succ bound fun inner hinner fuel _ => ?_
  obtain ⟨top, htop⟩ := hpart inner hinner inner hinner
  exact getLevel_last htop hq

theorem operator {operators : List Options} {part : Phrase} {p q r : Nat} (hpart : Parses token_array part p q)
    (hq : At token_array q (·.IsOneOf operators)) (hrest : Parses token_array (.level operators part) (q + 1) r) :
    Parses token_array (.level operators part) p r := by
  obtain ⟨bound, h⟩ := hpart.and hrest
  refine of_succ bound fun inner hinner fuel hfuel => ?_
  obtain ⟨top, htop⟩ := (h inner hinner inner hinner).1
  obtain ⟨rest, hrest⟩ := (h inner hinner fuel hfuel).2
  exact getLevel_operator htop hq hrest

theorem run_sum (fuel : Nat) :
    run token_array .sum fuel fuel = getAddSub token_array (getBracketExp token_array fuel) fuel := rfl

theorem sum {p q : Nat} (hsum : Parses token_array .sum p q) (hq : At token_array q (¬·.IsOneOf comparisons)) :
    Parses token_array .expression p q := by
  obtain ⟨bound, hsum⟩ := hsum
  refine ⟨bound, fun inner _ fuel hfuel => ?_⟩
  obtain ⟨left, hleft⟩ := hsum fuel hfuel fuel hfuel
  exact ⟨left, getExpression_sum hleft hq⟩

theorem comparison {p q r : Nat} (hleft : Parses token_array .sum p q) (hq : At token_array q (·.IsOneOf comparisons))
    (hright : Parses token_array .sum (q + 1) r) : Parses token_array .expression p r := by
  obtain ⟨bound, h⟩ := hleft.and hright
  refine ⟨bound, fun inner _ fuel hfuel => ?_⟩
  obtain ⟨⟨left, hleft⟩, right, hright⟩ := h fuel hfuel fuel hfuel
  exact getExpression_comparison hleft hq hright

/-! ### Variables, calls and parameters -/

theorem call {p q : Nat} (hp : At token_array p (·.CHECK_OP_T CALL)) (hname : At token_array (p + 1) Token.IsLiteral)
    (hparams : Parses token_array .parameters (p + 2) q) : Parses token_array .value p q := by
  obtain ⟨token, htoken, hcall⟩ := hp
  obtain ⟨name, hname, hne⟩ := getNumOrName_literal hname
  obtain ⟨bound, hparams⟩ := hparams
  refine ⟨bound, fun inner hinner fuel _ => ?_⟩
  obtain ⟨params, hparams⟩ := hparams inner hinner inner hinner
  simp only [run] at hparams
  cases name with
  | null => exact absurd rfl hne
  | node type value left right =>
      simp only [run, getCall, curToken_ok htoken, ok_bind, if_pos hcall, hname, hparams, setType]
      exact ⟨_, rfl⟩

theorem inOut {p q : Nat} (hp : At token_array p (fun token => token.CHECK_OP_T IN ∨ token.CHECK_OP_T OUT))
    (hparams : Parses token_array .parameters (p + 1) q) : Parses token_array .value p q := by
  obtain ⟨token, htoken, hop⟩ := hp
  have hcall : ¬token.CHECK_OP_T CALL := hop.elim (·.other CALL (by decide)) (·.other CALL (by decide))
  obtain ⟨bound, hparams⟩ := hparams
  refine ⟨bound, fun inner hinner fuel _ => ?_⟩
  obtain ⟨params, hparams⟩ := hparams inner hinner inner hinner
  simp only [run] at hparams
  simp only [run, getCall, getInOut, curToken_ok htoken, ok_bind, if_neg hcall, hparams]
  by_cases hin : token.CHECK_OP_T IN
  · rw [if_pos hin]
    exact ⟨_, rfl⟩
  · rw [if_neg hin, if_pos (hop.resolve_left hin)]
    exact ⟨_, rfl⟩

theorem plain {p q : Nat}
    (hp : At token_array p (fun token => ¬token.CHECK_OP_T CALL ∧ ¬token.CHECK_OP_T IN ∧ ¬token.CHECK_OP_T OUT))
    (hargument : Parses token_array .argument p q) : Parses token_array .value p q := by
  obtain ⟨token, htoken, hcall, hin, hout⟩ := hp
  obtain ⟨bound, hargument⟩ := hargument
  refine ⟨bound, fun inner hinner fuel hfuel => ?_⟩
  simp only [run, getCall, getInOut, curToken_ok htoken, ok_bind, if_neg hcall, if_neg hin, if_neg hout]
  exact hargument inner hinner fuel hfuel

theorem var {p q : Nat} (hp : At token_array p (·.CHECK_OP_T VAR)) (hname : At token_array (p + 1) Token.IsLiteral)
    (hvalue : Parses token_array .value (p + 2) q) : Parses token_array .argument p q := by
  obtain ⟨token, htoken, hvar⟩ := hp
  obtain ⟨name, hname, -⟩ := getNumOrName_literal hname
  obtain ⟨bound, hvalue⟩ := hvalue
  refine of_succ bound fun inner hinner fuel hfuel => ?_
  obtain ⟨value, hvalue⟩ := hvalue inner hinner fuel hfuel
  simp only [run] at hvalue
  simp only [run, getVar, curToken_ok htoken, ok_bind, if_pos hvar, hname, hvalue]
  exact ⟨_, rfl⟩

theorem noName {p q : Nat} (hp : At token_array p (·.CHECK_OP_T VAR)) (hname : At token_array (p + 1) (¬·.IsLiteral))
    (hvalue : Parses token_array .value (p + 1) q) : Parses token_array .argument p q := by
  obtain ⟨token, htoken, hvar⟩ := hp
  obtain ⟨bound, hvalue⟩ := hvalue
  refine of_succ bound fun inner hinner fuel hfuel => ?_
  obtain ⟨value, hvalue⟩ := hvalue inner hinner fuel hfuel
  simp only [run] at hvalue
  simp only [run, getVar, curToken_ok htoken, ok_bind, if_pos hvar, getNumOrName_other hname, hvalue]
  exact ⟨_, rfl⟩

theorem bare {p q : Nat} (hp : At token_array p (¬·.CHECK_OP_T VAR)) (hexp : Parses token_array .expression p q) :
    Parses token_array .argument p q := by
  obtain ⟨token, htoken, hvar⟩ := hp
  obtain ⟨bound, hexp⟩ := hexp
  refine of_succ bound fun inner _ fuel hfuel => ?_
  simp only [run, getVar, curToken_ok htoken, ok_bind, if_neg hvar]
  exact hexp fuel hfuel fuel hfuel

theorem noArguments {p : Nat} (hp : At token_array p (·.op_val = some CLOSE_BR)) :
    Parses token_array .arguments p (p + 1) := by
  obtain ⟨token, htoken, hclose⟩ := hp
  refine ⟨0, fun inner _ fuel _ => ⟨null, ?_⟩⟩
  simp only [run, curToken_ok htoken, ok_bind, if_pos hclose]
  rfl

theorem another {p q r : Nat} (hp : At token_array p (·.op_val ≠ some CLOSE_BR)) (hargument : Parses token_array .argument p q)
    (hrest : Parses token_array .parameters q r) : Parses token_array .arguments p r := by
  obtain ⟨token, htoken, hclose⟩ := hp
  obtain ⟨bound, h⟩ := hargument.and hrest
  refine ⟨bound, fun inner _ fuel hfuel => ?_⟩
  obtain ⟨⟨param_node, hparam⟩, next, hnext⟩ := h fuel hfuel fuel hfuel
  simp only [run] at hparam hnext
  simp only [run, curToken_ok htoken, ok_bind, if_neg hclose, hparam, hnext]
  exact ⟨_, rfl⟩

theorem opened {p q : Nat} (hp : At token_array p (·.CHECK_OP_T OPEN_BR)) (hargs : Parses token_array .arguments (p + 1) q) :
    Parses token_array .parameters p q := by
  obtain ⟨token, htoken, hopen⟩ := hp
  obtain ⟨bound, hargs⟩ := hargs
  refine of_succ bound fun inner _ fuel hfuel => ?_
  simp only [run, getParam, curToken_ok htoken, ok_bind, if_pos hopen]
  exact hargs fuel hfuel fuel hfuel

theorem unopened {p q : Nat} (hp : At token_array p (¬·.CHECK_OP_T OPEN_BR)) (hargs : Parses token_array .arguments p q) :
    Parses token_array .parameters p q := by
  obtain ⟨token, htoken, hopen⟩ := hp
  obtain ⟨bound, hargs⟩ := hargs
  refine of_succ bound fun inner _ fuel hfuel => ?_
  have harguments := hargs fuel hfuel fuel hfuel
  simp only [run, curToken_ok htoken, ok_bind] at harguments
  simp only [run, getParam, curToken_ok htoken, ok_bind, if_neg hopen]
  exact harguments

/-! ### Statements -/

theorem header {p q : Nat} (hname : At token_array p Token.IsLiteral) (hparams : Parses token_array .parameters (p + 1) q) :
    ∃ bound, ∀ fuel ≥ bound, ∃ tree, getFuncHeader token_array fuel p = .ok (tree, q) := by
  obtain ⟨name, hname, hne⟩ := getNumOrName_literal hname
  obtain ⟨bound, hparams⟩ := hparams
  refine ⟨bound, fun fuel hfuel => ?_⟩
  obtain ⟨params, hparams⟩ := hparams fuel hfuel fuel hfuel
  simp only [run] at hparams
  cases name with
  | null => exact absurd rfl hne
  | node type value left right =>
      simp only [getFuncHeader, hname, ok_bind, hparams, setType, setLeft]
      exact ⟨_, rfl⟩

theorem declaration {p q r : Nat} (hp : At token_array p (·.CHECK_OP_T FUNC)) (hname : At token_array (p + 1) Token.IsLiteral)
    (hparams : Parses token_array .parameters (p + 2) q) (hbody : Parses token_array .block q r) :
    Parses token_array .item p r := by
  obtain ⟨token, htoken, hfunc⟩ := hp
  obtain ⟨bound, hheader⟩ := header hname hparams
  obtain ⟨bound', hbody⟩ := hbody
  refine ⟨max bound bound', fun inner _ fuel hfuel => ?_⟩
  obtain ⟨head, hhead⟩ := hheader fuel (le_trans (le_max_left _ _) hfuel)
  obtain ⟨body, hbody⟩ := hbody fuel (le_trans (le_max_right _ _) hfuel) fuel (le_trans (le_max_right _ _) hfuel)
  simp only [run] at hbody
  simp only [run, getFunction, curToken_ok htoken, ok_bind, if_pos hfunc, hhead, hbody]
  exact ⟨_, rfl⟩

theorem noElse {p q r : Nat} (hp : At token_array p (·.CHECK_OP_T IF)) (hcondition : Parses token_array .expression (p + 1) q)
    (hbody : Parses token_array .block q r) (hr : At token_array r (·.op_val ≠ some ELSE)) : Parses token_array .item p r := by
  obtain ⟨token, htoken, hif⟩ := hp
  obtain ⟨token', htoken', helse⟩ := hr
  obtain ⟨bound, h⟩ := hcondition.and hbody
  refine ⟨bound, fun inner _ fuel hfuel => ?_⟩
  obtain ⟨⟨condition, hcondition⟩, body, hbody⟩ := h fuel hfuel fuel hfuel
  simp only [run] at hcondition hbody
  simp only [run, getFunction, getIfElse, getCondition, curToken_ok htoken, ok_bind, if_neg (hif.other FUNC (by decide)),
    if_pos hif, hcondition, hbody, curToken_ok htoken', if_pos helse]
  exact ⟨null, rfl⟩

theorem conditional {p q r s : Nat} (hp : At token_array p (·.CHECK_OP_T IF))
    (hcondition : Parses token_array .expression (p + 1) q) (hbody : Parses token_array .block q r)
    (hr : At token_array r (·.op_val = some ELSE)) (helse : Parses token_array .block (r + 1) s) :
    Parses token_array .item p s := by
  obtain ⟨token, htoken, hif⟩ := hp
  obtain ⟨token', htoken', hop⟩ := hr
  obtain ⟨bound, h⟩ := hcondition.and hbody
  obtain ⟨bound', helse⟩ := helse
  refine ⟨max bound bound', fun inner _ fuel hfuel => ?_⟩
  have hfuel₁ : fuel ≥ bound := le_trans (le_max_left _ _) hfuel
  have hfuel₂ : fuel ≥ bound' := le_trans (le_max_right _ _) hfuel
  obtain ⟨⟨condition, hcondition⟩, body, hbody⟩ := h fuel hfuel₁ fuel hfuel₁
  obtain ⟨else_body, helse⟩ := helse fuel hfuel₂ fuel hfuel₂
  simp only [run] at hcondition hbody helse
  simp only [run, getFunction, getIfElse, getCondition, curToken_ok htoken, ok_bind, if_neg (hif.other FUNC (by decide)),
    if_pos hif, hcondition, hbody, curToken_ok htoken', if_neg (not_not.2 hop), helse]
  exact ⟨_, rfl⟩

theorem loop {p q r : Nat} (hp : At token_array p (·.CHECK_OP_T WHILE)) (hcondition : Parses token_array .expression (p + 1) q)
    (hbody : Parses token_array .block q r) : Parses token_array .item p r := by
  obtain ⟨token, htoken, hwhile⟩ := hp
  obtain ⟨bound, h⟩ := hcondition.and hbody
  refine ⟨bound, fun inner _ fuel hfuel => ?_⟩
  obtain ⟨⟨condition, hcondition⟩, body, hbody⟩ := h fuel hfuel fuel hfuel
  simp only [run] at hcondition hbody
  simp only [run, getFunction, getIfElse, getWhile, getCondition, curToken_ok htoken, ok_bind,
    if_neg (hwhile.other FUNC (by decide)), if_neg (hwhile.other IF (by decide)), if_pos hwhile, hcondition, hbody]
  exact ⟨_, rfl⟩

theorem ret {p q : Nat} (hp : At token_array p (·.CHECK_OP_T RET)) (hparams : Parses token_array .parameters (p + 1) q) :
    Parses token_array .item p q := by
  obtain ⟨token, htoken, hret⟩ := hp
  obtain ⟨bound, hparams⟩ := hparams
  refine ⟨bound, fun inner _ fuel hfuel => ?_⟩
  obtain ⟨params, hparams⟩ := hparams fuel hfuel fuel hfuel
  simp only [run] at hparams
  simp only [run, getFunction, getIfElse, getWhile, getRet, curToken_ok htoken, ok_bind,
    if_neg (hret.other FUNC (by decide)), if_neg (hret.other IF (by decide)),
    if_neg (hret.other WHILE (by decide)), if_pos hret, hparams]
  exact ⟨_, rfl⟩

theorem statement {p q : Nat}
    (hp : At token_array p (fun token => ¬token.CHECK_OP_T FUNC ∧ ¬token.CHECK_OP_T IF ∧ ¬token.CHECK_OP_T WHILE ∧
      ¬token.CHECK_OP_T RET))
    (hvalue : Parses token_array .value p q) : Parses token_array .item p q := by
  obtain ⟨token, htoken, hfunc, hif, hwhile, hret⟩ := hp
  obtain ⟨bound, hvalue⟩ := hvalue
  refine ⟨bound, fun inner _ fuel hfuel => ?_⟩
  simp only [run, getFunction, getIfElse, getWhile, getRet, curToken_ok htoken, ok_bind, if_neg hfunc, if_neg hif, if_neg hwhile,
    if_neg hret]
  exact hvalue fuel hfuel fuel hfuel

theorem ending {p : Nat} (hp : At token_array p (·.op_val = some TERMINATION_SYM)) : Parses token_array .block p p := by
  obtain ⟨token, htoken, hterm⟩ := hp
  refine of_succ 0 fun inner _ fuel _ => ⟨null, ?_⟩
  simp only [run, getStatement, curToken_ok htoken, ok_bind, if_pos hterm]
  rfl

theorem empty {p q : Nat} (hp : At token_array p (·.op_val = some SEMI_COL)) (hblock : Parses token_array .block (p + 1) q) :
    Parses token_array .block p q := by
  obtain ⟨token, htoken, hsemi⟩ := hp
  obtain ⟨bound, hblock⟩ := hblock
  refine of_succ bound fun inner _ fuel hfuel => ?_
  simp only [run, getStatement, curToken_ok htoken, ok_bind, hsemi, if_true]
  exact hblock fuel hfuel fuel hfuel

theorem close {p : Nat} (hp : At token_array p (·.op_val = some CLOSE_BR)) : Parses token_array .block p (p + 1) := by
  obtain ⟨token, htoken, hclose⟩ := hp
  refine of_succ 0 fun inner _ fuel _ => ⟨null, ?_⟩
  simp only [run, getStatement, curToken_ok htoken, ok_bind, hclose, if_true]
  rfl

theorem item {p q r : Nat} (hp : At token_array p (¬·.IsOneOf [TERMINATION_SYM, SEMI_COL, CLOSE_BR]))
    (hitem : Parses token_array .item p q) (hrest : Parses token_array .block q r) : Parses token_array .block p r := by
  obtain ⟨token, htoken, hop⟩ := hp
  have hterm : token.op_val ≠ some TERMINATION_SYM := fun h => hop ⟨_, by simp, h⟩
  have hsemi : token.op_val ≠ some SEMI_COL := fun h => hop ⟨_, by simp, h⟩
  have hclose : token.op_val ≠ some CLOSE_BR := fun h => hop ⟨_, by simp, h⟩
  obtain ⟨bound, h⟩ := hitem.and hrest
  refine of_succ bound fun inner _ fuel hfuel => ?_
  obtain ⟨⟨left_child, hleft⟩, next, hnext⟩ := h fuel hfuel fuel hfuel
  simp only [run] at hleft hnext
  simp only [run, getStatement, curToken_ok htoken, ok_bind, if_neg hterm, if_neg hsemi, if_neg hclose, hleft, hnext]
  exact ⟨_, rfl⟩

end Parses

theorem Derives.parses {phrase : Phrase} {p q : Nat} (h : Derives token_array phrase p q) : Parses token_array phrase p q := by
  induction h with
  | brackets hopen _ hclose ih => exact .brackets hopen ih hclose
  | function hp _ ih => exact .function hp ih
  | literal hp => exact .literal hp
  | noOperand hp => exact .noOperand hp
  | last _ hq ih => exact ih.last hq
  | operator _ hq _ ih ihrest => exact ih.operator hq ihrest
  | sum _ hq ih => exact ih.sum hq
  | comparison _ hq _ ihleft ihright => exact ihleft.comparison hq ihright
  | call hp hname _ ih => exact .call hp hname ih
  | inOut hp _ ih => exact .inOut hp ih
  | plain hp _ ih => exact .plain hp ih
  | var hp hname _ ih => exact .var hp hname ih
  | noName hp hname _ ih => exact .noName hp hname ih
  | bare hp _ ih => exact .bare hp ih
  | noArguments hp => exact .noArguments hp
  | another hp _ _ _ ih ihrest => exact .another hp ih ihrest
  | opened hp _ ih => exact .opened hp ih
  | unopened hp _ ih => exact .unopened hp ih
  | declaration hp hname _ _ ihparams ihbody => exact .declaration hp hname ihparams ihbody
  | noElse hp _ _ hr ihcondition ihbody => exact .noElse hp ihcondition ihbody hr
  | conditional hp _ _ hr _ ihcondition ihbody ihelse => exact .conditional hp ihcondition ihbody hr ihelse
  | loop hp _ _ ihcondition ihbody => exact .loop hp ihcondition ihbody
  | ret hp _ ih => exact .ret hp ih
  | statement hp _ ih => exact .statement hp ih
  | ending hp => exact .ending hp
  | empty hp _ ih => exact .empty hp ih
  | close hp => exact .close hp
  | item hp _ _ _ ih ihrest => exact .item hp ih ihrest

end CompilerLab.Language
