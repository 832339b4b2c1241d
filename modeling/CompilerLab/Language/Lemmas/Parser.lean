import CompilerLab.Language.Grammar

/-!
# What the parser accepts

A parser that returns has read a phrase of the grammar.
-/

namespace CompilerLab.Language

open Options TreeNode

variable {token_array : List Token}

/-! ## Steps of a parser -/

theorem curToken_eq_ok {p : Nat} {token : Token} : curToken token_array p = .ok token ↔ token_array[p]? = some token := by
  unfold curToken
  cases token_array[p]? <;> simp

theorem bind_ok {α β : Type} {x : Except Fault α} {f : α → Except Fault β} {b : β} :
    x >>= f = .ok b ↔ ∃ a, x = .ok a ∧ f a = .ok b := by
  cases x <;> simp [bind, Except.bind]

theorem find?_op_val_some {token : Token} {options : List Options} {op : Options}
    (h : options.find? (fun op => token.op_val = some op) = some op) : token.IsOneOf options := by
  have hop : token.op_val = some op := by simpa using List.find?_some h
  exact ⟨op, List.mem_of_find?_eq_some h, hop⟩

theorem find?_op_val_none {token : Token} {options : List Options}
    (h : options.find? (fun op => token.op_val = some op) = none) : ¬token.IsOneOf options := by
  rintro ⟨op, hop, heq⟩
  have := List.find?_eq_none.1 h op hop
  simp [heq] at this

theorem setType_ok {type : Types} {tree named : TreeNode} (h : setType type tree = .ok named) : tree ≠ null := by
  rintro rfl
  cases h

/-! ## Expressions -/

theorem getNumOrName_ok {p q : Nat} {tree : TreeNode} (h : getNumOrName token_array p = .ok (tree, q)) :
    At token_array p Token.IsLiteral ∧ q = p + 1 ∧ tree ≠ null ∨ At token_array p (¬·.IsLiteral) ∧ q = p ∧ tree = null := by
  simp only [getNumOrName, bind_ok, curToken_eq_ok] at h
  obtain ⟨token, htoken, h⟩ := h
  split_ifs at h with hnum hvar
  · cases h
    exact .inl ⟨⟨token, htoken, .inl hnum⟩, rfl, by simp [DIGIT_NODE]⟩
  · cases h
    exact .inl ⟨⟨token, htoken, .inr hvar⟩, rfl, by simp [VAR_NODE]⟩
  · cases h
    exact .inr ⟨⟨token, htoken, fun hliteral => hliteral.elim hnum hvar⟩, rfl, rfl⟩

section
variable {operators : List Options} {part : Phrase} {operand : Nat → Result}

theorem operationLoop_derives (hoperand : ∀ {p q tree}, operand p = .ok (tree, q) → Derives token_array part p q)
    {fuel p q : Nat} {top tree : TreeNode} (h : operationLoop token_array operators operand fuel top p = .ok (tree, q)) {s : Nat}
    (hs : Derives token_array part s p) : Derives token_array (.level operators part) s q := by
  induction fuel generalizing p top s with
  | zero => cases h
  | succ fuel ih =>
      simp only [operationLoop, bind_ok, curToken_eq_ok] at h
      obtain ⟨token, htoken, h⟩ := h
      split at h
      case h_1 last_op hop =>
        simp only [bind_ok] at h
        obtain ⟨⟨right, r⟩, hright, hrest⟩ := h
        exact .operator hs ⟨token, htoken, find?_op_val_some hop⟩ (ih hrest (hoperand hright))
      case h_2 hop =>
        cases h
        exact .last hs ⟨token, htoken, find?_op_val_none hop⟩

theorem getLevel_derives (hoperand : ∀ {p q tree}, operand p = .ok (tree, q) → Derives token_array part p q)
    {fuel p q : Nat} {tree : TreeNode} (h : getLevel token_array operators operand fuel p = .ok (tree, q)) :
    Derives token_array (.level operators part) p q := by
  simp only [getLevel, bind_ok] at h
  obtain ⟨⟨top, r⟩, htop, hloop⟩ := h
  exact operationLoop_derives hoperand hloop (hoperand htop)

end

theorem getExpression_derives {bracketExp : Nat → Result}
    (hoperand : ∀ {p q tree}, bracketExp p = .ok (tree, q) → Derives token_array .operand p q) {fuel p q : Nat}
    {tree : TreeNode} (h : getExpression token_array bracketExp fuel p = .ok (tree, q)) :
    Derives token_array .expression p q := by
  have hsum : ∀ {p q tree}, getAddSub token_array bracketExp fuel p = .ok (tree, q) → Derives token_array .sum p q :=
    getLevel_derives (getLevel_derives (getLevel_derives hoperand))
  simp only [getExpression, bind_ok, curToken_eq_ok] at h
  obtain ⟨⟨left, r⟩, hleft, token, htoken, h⟩ := h
  split at h
  case h_1 operation hop =>
    simp only [bind_ok] at h
    obtain ⟨⟨right, s⟩, hright, h⟩ := h
    cases h
    exact .comparison (hsum hleft) ⟨token, htoken, find?_op_val_some hop⟩ (hsum hright)
  case h_2 hop =>
    cases h
    exact .sum (hsum hleft) ⟨token, htoken, find?_op_val_none hop⟩

theorem getBracketExp_derives {fuel p q : Nat} {tree : TreeNode} (h : getBracketExp token_array fuel p = .ok (tree, q)) :
    Derives token_array .operand p q := by
  induction fuel generalizing p q tree with
  | zero => cases h
  | succ fuel ih =>
      simp only [getBracketExp, bind_ok, curToken_eq_ok] at h
      obtain ⟨token, htoken, h⟩ := h
      split_ifs at h with hopen
      · simp only [bind_ok, curToken_eq_ok] at h
        obtain ⟨⟨sub_node, r⟩, hsub, close, hclose, h⟩ := h
        split_ifs at h with hbr
        cases h
        exact .brackets ⟨token, htoken, hopen⟩ (getExpression_derives ih hsub) ⟨close, hclose, hbr⟩
      · simp only [getSpecOperations, bind_ok, curToken_eq_ok] at h
        obtain ⟨_, htoken', h⟩ := h
        cases htoken.symm.trans htoken'
        split at h
        case h_1 operation hop =>
          have hfunction : token.IsFunction :=
            ⟨operation, List.mem_of_find?_eq_some hop, by simpa using List.find?_some hop⟩
          simp only [bind_ok] at h
          obtain ⟨⟨sub_node, r⟩, hsub, h⟩ := h
          cases h
          exact .function ⟨token, htoken, hopen, hfunction⟩ (ih hsub)
        case h_2 hop =>
          have hfunction : ¬token.IsFunction := by
            rintro ⟨op, hop', hcheck⟩
            have := List.find?_eq_none.1 hop op hop'
            simp [hcheck] at this
          obtain ⟨⟨_, hat, hliteral⟩, rfl, -⟩ | ⟨⟨_, hat, hliteral⟩, rfl, -⟩ := getNumOrName_ok h
          · cases htoken.symm.trans hat
            exact .literal ⟨token, htoken, hopen, hliteral⟩
          · cases htoken.symm.trans hat
            exact .noOperand ⟨token, htoken, hopen, hfunction, hliteral⟩

/-! ## Variables, calls and parameters -/

section
variable {param : Nat → Result}

theorem getCall_derives (hparam : ∀ {p q tree}, param p = .ok (tree, q) → Derives token_array .parameters p q)
    {var : Nat → Result} (hvar : ∀ {p q tree}, var p = .ok (tree, q) → Derives token_array .argument p q) {p q : Nat}
    {tree : TreeNode} (h : getCall token_array param var p = .ok (tree, q)) : Derives token_array .value p q := by
  simp only [getCall, bind_ok, curToken_eq_ok] at h
  obtain ⟨token, htoken, h⟩ := h
  split_ifs at h with hcall
  · simp only [bind_ok] at h
    obtain ⟨⟨name, r⟩, hname, ⟨params, s⟩, hparams, named, hnamed, h⟩ := h
    cases h
    obtain ⟨hliteral, rfl, -⟩ | ⟨-, -, hnull⟩ := getNumOrName_ok hname
    · exact .call ⟨token, htoken, hcall⟩ hliteral (hparam hparams)
    · exact absurd hnull (setType_ok hnamed)
  · simp only [getInOut, bind_ok, curToken_eq_ok] at h
    obtain ⟨_, htoken', h⟩ := h
    cases htoken.symm.trans htoken'
    split_ifs at h with hin hout
    · simp only [bind_ok] at h
      obtain ⟨⟨params, r⟩, hparams, h⟩ := h
      cases h
      exact .inOut ⟨token, htoken, .inl hin⟩ (hparam hparams)
    · simp only [bind_ok] at h
      obtain ⟨⟨params, r⟩, hparams, h⟩ := h
      cases h
      exact .inOut ⟨token, htoken, .inr hout⟩ (hparam hparams)
    · exact .plain ⟨token, htoken, hcall, hin, hout⟩ (hvar h)

theorem getVar_derives (hparam : ∀ {p q tree}, param p = .ok (tree, q) → Derives token_array .parameters p q)
    {fuel p q : Nat} {tree : TreeNode} (h : getVar token_array param fuel p = .ok (tree, q)) :
    Derives token_array .argument p q := by
  induction fuel generalizing p q tree with
  | zero => cases h
  | succ fuel ih =>
      simp only [getVar, bind_ok, curToken_eq_ok] at h
      obtain ⟨token, htoken, h⟩ := h
      split_ifs at h with hvar
      · simp only [bind_ok] at h
        obtain ⟨⟨name, r⟩, hname, ⟨val, s⟩, hval, h⟩ := h
        cases h
        obtain ⟨hliteral, rfl, -⟩ | ⟨hliteral, rfl, -⟩ := getNumOrName_ok hname
        · exact .var ⟨token, htoken, hvar⟩ hliteral (getCall_derives hparam ih hval)
        · exact .noName ⟨token, htoken, hvar⟩ hliteral (getCall_derives hparam ih hval)
      · exact .bare ⟨token, htoken, hvar⟩ (getExpression_derives getBracketExp_derives h)

end

/-! ## Phrases that take no token -/

theorem Derives.le {phrase : Phrase} {p q : Nat} (h : Derives token_array phrase p q) : p ≤ q := by
  induction h <;> omega

theorem Derives.start {operators : List Options} {part : Phrase} {p q : Nat}
    (h : Derives token_array (.level operators part) p q) : ∃ r ≤ q, Derives token_array part p r := by
  cases h with
  | last h _ => exact ⟨q, le_refl q, h⟩
  | operator h _ hrest => exact ⟨_, Nat.le_of_succ_le hrest.le, h⟩

theorem Derives.lt_of_open {p q : Nat} (h : Derives token_array .argument p q)
    (hopen : At token_array p (·.CHECK_OP_T OPEN_BR)) : p < q := by
  obtain ⟨token, htoken, -, hop⟩ := hopen
  have hsum : ∀ {r}, Derives token_array .sum p r → p < r := by
    intro r hr
    obtain ⟨r₁, h₁, hr₁⟩ := hr.start
    obtain ⟨r₂, h₂, hr₂⟩ := hr₁.start
    obtain ⟨r₃, h₃, hr₃⟩ := hr₂.start
    cases hr₃ with
    | brackets _ hexp _ => exact (Nat.lt_succ_of_lt hexp.le).trans_le (h₃.trans (h₂.trans h₁))
    | function hat hoperand => exact Nat.lt_of_lt_of_le hoperand.le (h₃.trans (h₂.trans h₁))
    | literal _ => exact Nat.lt_of_lt_of_le (Nat.lt_succ_self p) (h₃.trans (h₂.trans h₁))
    | noOperand hat =>
        obtain ⟨_, htoken', hne, -⟩ := hat
        cases htoken.symm.trans htoken'
        exact absurd hop hne
  cases h with
  | var _ _ hval => exact Nat.lt_of_succ_lt hval.le
  | noName _ _ hval => exact hval.le
  | bare _ hexp =>
      cases hexp with
      | sum hs _ => exact hsum hs
      | comparison hs _ hrest => exact (hsum hs).trans_le (Nat.le_of_succ_le hrest.le)

theorem Derives.arguments_of_empty {p q : Nat} (h : Derives token_array .argument p p)
    (hrest : Derives token_array .parameters p q) : Derives token_array .arguments p q := by
  cases hrest with
  | opened hopen _ => exact absurd (h.lt_of_open hopen) (lt_irrefl p)
  | unopened _ hargs => exact hargs

theorem getParam_derives {fuel p q : Nat} {tree : TreeNode} (h : getParam token_array fuel p = .ok (tree, q)) :
    Derives token_array .parameters p q := by
  induction fuel generalizing p q tree with
  | zero => cases h
  | succ fuel ih =>
      have arguments : ∀ {p token}, token_array[p]? = some token →
          (if token.op_val = some CLOSE_BR then (.ok (null, p + 1) : Result)
          else do
            let param ← getVar token_array (getParam token_array fuel) fuel p
            let next ← getParam token_array fuel param.2
            .ok (OP_NODE PARAM param.1 next.1, next.2)) = .ok (tree, q) →
          Derives token_array .arguments p q := by
        intro p token htoken h
        split_ifs at h with hclose
        · cases h
          exact .noArguments ⟨token, htoken, hclose⟩
        · simp only [bind_ok] at h
          obtain ⟨⟨param_node, r⟩, hvar, ⟨next, s⟩, hnext, h⟩ := h
          cases h
          have hargument := getVar_derives ih hvar
          obtain rfl | hlt := hargument.le.eq_or_lt
          · exact hargument.arguments_of_empty (ih hnext)
          · exact .another ⟨token, htoken, hclose⟩ hargument hlt (ih hnext)
      simp only [getParam, bind_ok, curToken_eq_ok] at h
      obtain ⟨token, htoken, token', htoken', h⟩ := h
      split_ifs at htoken' with hopen
      · rw [if_pos hopen] at h
        exact .opened ⟨token, htoken, hopen⟩ (arguments htoken' h)
      · rw [if_neg hopen] at h
        exact .unopened ⟨token, htoken, hopen⟩ (arguments htoken' h)

/-! ## Statements -/

theorem getRet_derives {fuel p q : Nat} {tree : TreeNode} (h : getRet token_array fuel p = .ok (tree, q))
    (hp : At token_array p (fun token => ¬token.CHECK_OP_T FUNC ∧ ¬token.CHECK_OP_T IF ∧ ¬token.CHECK_OP_T WHILE)) :
    Derives token_array .item p q := by
  simp only [getRet, bind_ok, curToken_eq_ok] at h
  obtain ⟨token, htoken, h⟩ := h
  split_ifs at h with hret
  · simp only [bind_ok] at h
    obtain ⟨⟨params, r⟩, hparams, h⟩ := h
    cases h
    exact .ret ⟨token, htoken, hret⟩ (getParam_derives hparams)
  · obtain ⟨_, htoken', hfunc, hif, hwhile⟩ := hp
    cases htoken.symm.trans htoken'
    exact .statement ⟨token, htoken, hfunc, hif, hwhile, hret⟩ (getCall_derives getParam_derives (getVar_derives getParam_derives) h)

theorem getFunction_derives {statement : Nat → Result}
    (hstatement : ∀ {p q tree}, statement p = .ok (tree, q) → Derives token_array .block p q) {fuel p q : Nat} {tree : TreeNode}
    (h : getFunction token_array fuel statement p = .ok (tree, q)) : Derives token_array .item p q := by
  simp only [getFunction, bind_ok, curToken_eq_ok] at h
  obtain ⟨token, htoken, h⟩ := h
  split_ifs at h with hfunc
  · simp only [getFuncHeader, bind_ok] at h
    obtain ⟨⟨header, r⟩, ⟨⟨name, r'⟩, hname, named, hnamed, ⟨params, r''⟩, hparams, headed, -, hheader⟩, ⟨body, s⟩, hbody, h⟩ := h
    cases hheader
    cases h
    obtain ⟨hliteral, rfl, -⟩ | ⟨-, -, hnull⟩ := getNumOrName_ok hname
    · exact .declaration ⟨token, htoken, hfunc⟩ hliteral (getParam_derives hparams) (hstatement hbody)
    · exact absurd hnull (setType_ok hnamed)
  · simp only [getIfElse, bind_ok, curToken_eq_ok] at h
    obtain ⟨_, htoken', h⟩ := h
    cases htoken.symm.trans htoken'
    split_ifs at h with hif
    · simp only [bind_ok, curToken_eq_ok] at h
      obtain ⟨⟨condition, r⟩, hcondition, ⟨if_body, s⟩, hbody, token', htoken', h⟩ := h
      have hcondition := getExpression_derives getBracketExp_derives hcondition
      split_ifs at h with helse
      · cases h
        exact .noElse ⟨token, htoken, hif⟩ hcondition (hstatement hbody) ⟨token', htoken', helse⟩
      · simp only [bind_ok] at h
        obtain ⟨⟨else_body, r'⟩, helse_body, h⟩ := h
        cases h
        exact .conditional ⟨token, htoken, hif⟩ hcondition (hstatement hbody) ⟨token', htoken', not_not.1 helse⟩
          (hstatement helse_body)
    · simp only [getWhile, bind_ok, curToken_eq_ok] at h
      obtain ⟨_, htoken', h⟩ := h
      cases htoken.symm.trans htoken'
      split_ifs at h with hwhile
      · simp only [bind_ok] at h
        obtain ⟨⟨condition, r⟩, hcondition, ⟨body, s⟩, hbody, h⟩ := h
        cases h
        exact .loop ⟨token, htoken, hwhile⟩ (getExpression_derives getBracketExp_derives hcondition) (hstatement hbody)
      · exact getRet_derives h ⟨token, htoken, hfunc, hif, hwhile⟩

theorem getStatement_derives {fuel p q : Nat} {tree : TreeNode} (h : getStatement token_array fuel p = .ok (tree, q)) :
    Derives token_array .block p q := by
  induction fuel generalizing p q tree with
  | zero => cases h
  | succ fuel ih =>
      simp only [getStatement, bind_ok, curToken_eq_ok] at h
      obtain ⟨token, htoken, h⟩ := h
      split_ifs at h with hterm hsemi hclose
      · cases h
        exact .ending ⟨token, htoken, hterm⟩
      · exact .empty ⟨token, htoken, hsemi⟩ (ih h)
      · cases h
        exact .close ⟨token, htoken, hclose⟩
      · simp only [bind_ok] at h
        obtain ⟨⟨left_child, r⟩, hitem, ⟨next, s⟩, hnext, h⟩ := h
        cases h
        have hitem := getFunction_derives ih hitem
        have hblock := ih hnext
        -- where the statement took nothing, the next call has read the block from the same token
        obtain rfl | hlt := hitem.le.eq_or_lt
        · exact hblock
        · refine .item ⟨token, htoken, ?_⟩ hitem hlt hblock
          simp [Token.IsOneOf, hterm, hsemi, hclose]

end CompilerLab.Language
