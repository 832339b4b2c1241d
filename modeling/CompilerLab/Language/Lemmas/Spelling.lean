import CompilerLab.Lib.Segment
import CompilerLab.Language.Lemmas.Fuel
import CompilerLab.Language.Spelling

/-!
# The parser on what is spelled

With enough fuel the parser of a phrase gives the tree that the tokens stand for.
-/

namespace CompilerLab.Language

open Options TreeNode Lib

variable {token_array tokens tokens' : List Token} {phrase part : Phrase} {operators : List Options} {op op' : Options}
  {tree left right : TreeNode} {token next : Token} {p q r fuel : Nat}

/-! ## The first token -/

@[simp] theorem createToken_type : (createToken op).type = .OP_T := rfl

@[simp] theorem op_val_createToken : (createToken op).op_val = some op := by cases op <;> rfl

@[simp] theorem check_createToken : (createToken op).CHECK_OP_T op' ↔ op = op' := by simp [Token.CHECK_OP_T]

@[simp] theorem isOneOf_createToken : (createToken op).IsOneOf operators ↔ op ∈ operators := by simp [Token.IsOneOf]

/-- A phrase may begin with the token. -/
def CanBegin (phrase : Phrase) (token : Token) : Prop :=
  token.IsLiteral ∧ token.IsPlain ∨ ∃ op ∈ phrase.heads, token = createToken op

namespace CanBegin

theorem mono {phrase' : Phrase} (h : CanBegin phrase token) (hsub : phrase.heads ⊆ phrase'.heads) : CanBegin phrase' token := by
  obtain h | ⟨op, hop, rfl⟩ := h
  · exact .inl h
  · exact .inr ⟨op, hsub hop, rfl⟩

theorem operation (hop : op ∈ phrase.heads) : CanBegin phrase (createToken op) := .inr ⟨op, hop, rfl⟩

theorem not_check (h : CanBegin phrase token) (hop : op ∉ phrase.heads) : ¬token.CHECK_OP_T op := by
  obtain ⟨hliteral, -⟩ | ⟨op', hop', rfl⟩ := h
  · rintro ⟨htype, -⟩
    obtain h | h := hliteral <;> rw [h] at htype <;> cases htype
  · rw [check_createToken]
    rintro rfl
    exact hop hop'

theorem not_isOneOf (h : CanBegin phrase token)
    (hsub : operators ⊆ [OPEN_BR, CLOSE_BR, SEMI_COL, TERMINATION_SYM, ELSE, ADD, SUB, MUL, DIV, POW] ++ comparisons)
    (hheads : ∀ op ∈ operators, op ∉ phrase.heads) : ¬token.IsOneOf operators := by
  obtain ⟨-, hplain⟩ | ⟨op, hop, rfl⟩ := h
  · rintro ⟨op, hop, hval⟩
    exact hplain ⟨op, hsub hop, hval⟩
  · rw [isOneOf_createToken]
    exact fun hmem => hheads op hmem hop

end CanBegin

theorem Spells.canBegin (h : Spells phrase tree tokens) : ∃ token rest, tokens = token :: rest ∧ CanBegin phrase token := by
  induction h with
  | number htype hplain => exact ⟨_, _, rfl, .inl ⟨.inl htype, hplain⟩⟩
  | «variable» htype hplain => exact ⟨_, _, rfl, .inl ⟨.inr htype, hplain⟩⟩
  | function hop => exact ⟨_, _, rfl, .operation (List.mem_cons_of_mem _ hop)⟩
  | inOut hop =>
      refine ⟨_, _, rfl, .operation ?_⟩
      rcases hop with rfl | rfl <;> decide
  | brackets | var | call | noArguments | ret | loop | conditional | declaration | close | empty =>
      exact ⟨_, _, rfl, .operation (by decide)⟩
  | opened => exact ⟨_, _, rfl, .operation (by decide)⟩
  | lone _ ih => exact ih
  | sum _ ih => exact ih
  | operator _ _ _ _ ih _ | comparison _ _ _ ih _ | another _ _ ih _ | item _ _ ih _ =>
      obtain ⟨token, rest, rfl, hbegins⟩ := ih
      exact ⟨token, _, rfl, hbegins.mono (by simp [Phrase.heads, Phrase.sum])⟩
  | bare _ ih | plain _ ih | statement _ ih | unopened _ _ ih =>
      obtain ⟨token, rest, heq, hbegins⟩ := ih
      exact ⟨token, rest, heq, hbegins.mono (by simp [Phrase.heads])⟩

/-! ## Phrases -/

/-- With enough fuel the parser of the phrase goes from `p` to `q` and gives the tree. -/
def ParsesTo (token_array : List Token) (phrase : Phrase) (p : Nat) (tree : TreeNode) (q : Nat) : Prop :=
  ∃ bound, ∀ inner ≥ bound, ∀ fuel ≥ bound, run token_array phrase inner fuel p = .ok (tree, q)

/-- With enough fuel the loop of the level gets to `q` with the tree. -/
def Reaches (token_array : List Token) (operators : List Options) (part : Phrase) (p : Nat) (tree : TreeNode) (q : Nat) : Prop :=
  ∃ bound n, ∀ inner ≥ bound, ∀ fuel,
    run token_array (.level operators part) inner (fuel + n) p =
      operationLoop token_array operators (run token_array part inner inner) fuel tree q

/-- Wherever the tokens stand before one that does not go on with the phrase, they are taken for the tree. -/
def Understood (token_array : List Token) : Phrase → TreeNode → List Token → Prop
  | .level operators part, tree, tokens => ∀ p next, Stands token_array p tokens next → ¬next.IsOneOf part.operators →
      Reaches token_array operators part p tree (p + tokens.length)
  | phrase, tree, tokens => ∀ p next, Stands token_array p tokens next → ¬next.IsOneOf phrase.operators →
      ParsesTo token_array phrase p tree (p + tokens.length)

theorem not_isOneOf_append {operators' : List Options} (h : ¬token.IsOneOf (operators ++ operators')) :
    ¬token.IsOneOf operators ∧ ¬token.IsOneOf operators' := by
  refine ⟨fun ⟨op, hop, hval⟩ => h ⟨op, List.mem_append_left _ hop, hval⟩, fun ⟨op, hop, hval⟩ => h ⟨op, List.mem_append_right _ hop, hval⟩⟩

theorem find?_operator (hop : op ∈ operators) : operators.find? (fun op' => (createToken op).op_val = some op') = some op := by
  simp only [op_val_createToken, Option.some.injEq]
  induction operators with
  | nil => cases hop
  | cons op' operators ih =>
      by_cases heq : op = op'
      · subst heq
        simp
      · rw [List.find?_cons_of_neg (by simpa using heq)]
        exact ih ((List.mem_cons.1 hop).resolve_left heq)

namespace Reaches

theorem start (h : ParsesTo token_array part p tree q) : Reaches token_array operators part p tree q := by
  obtain ⟨bound, h⟩ := h
  refine ⟨bound, 0, fun inner hinner fuel => ?_⟩
  simp only [run, getLevel, Nat.add_zero, h inner hinner inner hinner, ok_bind]

theorem step (hleft : Reaches token_array operators part p left q) (hop : op ∈ operators)
    (hq : token_array[q]? = some (createToken op)) (hright : ParsesTo token_array part (q + 1) right r) :
    Reaches token_array operators part p (OP_NODE op left right) r := by
  obtain ⟨bound, n, hleft⟩ := hleft
  obtain ⟨bound', hright⟩ := hright
  refine ⟨max bound bound', n + 1, fun inner hinner fuel => ?_⟩
  rw [Nat.add_comm n, ← Nat.add_assoc, hleft inner (by omega)]
  simp only [operationLoop, curToken_ok hq, ok_bind, find?_operator hop, hright inner (by omega) inner (by omega)]

theorem stop (h : Reaches token_array operators part p tree q) (hq : token_array[q]? = some next) (hnext : ¬next.IsOneOf operators) :
    ParsesTo token_array (.level operators part) p tree q := by
  obtain ⟨bound, n, h⟩ := h
  refine ⟨bound + n + 1, fun inner hinner fuel hfuel => ?_⟩
  obtain ⟨k, rfl⟩ : ∃ k, fuel = k + 1 + n := ⟨fuel - n - 1, by omega⟩
  rw [h inner (by omega)]
  simp only [operationLoop, curToken_ok hq, ok_bind, find?_of_not_isOneOf hnext]
  rfl

end Reaches

theorem Understood.parses (h : Understood token_array phrase tree tokens) (hstands : Stands token_array p tokens next)
    (hnext : ¬next.IsOneOf phrase.operators) : ParsesTo token_array phrase p tree (p + tokens.length) := by
  cases phrase with
  | level operators part =>
      obtain ⟨hoperators, hpart⟩ := not_isOneOf_append hnext
      exact (h p next hstands hpart).stop hstands.last hoperators
  | _ => exact h p next hstands hnext

namespace ParsesTo

/-- One unit of fuel for the call itself. -/
theorem of_succ (bound : Nat) (h : ∀ inner ≥ bound, ∀ fuel ≥ bound, run token_array phrase inner (fuel + 1) p = .ok (tree, q)) :
    ParsesTo token_array phrase p tree q := by
  refine ⟨bound + 1, fun inner hinner fuel hfuel => ?_⟩
  obtain ⟨n, rfl⟩ : ∃ n, fuel = n + 1 := ⟨fuel - 1, by omega⟩
  exact h inner (by omega) n (by omega)

theorem literal (htoken : token_array[p]? = some token) (hliteral : token.IsLiteral) (hplain : token.IsPlain)
    (hname : getNumOrName token_array p = .ok (tree, p + 1)) : ParsesTo token_array .operand p tree (p + 1) := by
  have hopen : token.op_val ≠ some OPEN_BR := fun hval => hplain ⟨OPEN_BR, by decide, hval⟩
  refine of_succ 0 fun inner _ fuel _ => ?_
  simp only [run, getBracketExp, curToken_ok htoken, ok_bind, if_neg hopen]
  rw [getSpecOperations_other htoken hliteral.not_isFunction, hname]

theorem function (hp : token_array[p]? = some (createToken op)) (hop : op ∈ [SIN, COS, SQRT])
    (hoperand : ParsesTo token_array .operand (p + 1) tree q) : ParsesTo token_array .operand p (OP_NODE op tree null) q := by
  obtain ⟨bound, hoperand⟩ := hoperand
  have hopen : op ≠ OPEN_BR := by
    rintro rfl
    revert hop
    decide
  have hfind : [SIN, COS, SQRT].find? (fun op' => (createToken op).CHECK_OP_T op') = some op := by
    simp only [check_createToken]
    simpa using find?_operator hop
  refine of_succ bound fun inner _ fuel hfuel => ?_
  have hsub := hoperand fuel hfuel fuel hfuel
  simp only [run] at hsub
  simp only [run, getBracketExp, curToken_ok hp, ok_bind, op_val_createToken, Option.some.injEq, if_neg hopen, getSpecOperations, hfind,
    hsub]
  rfl

theorem brackets (hp : token_array[p]? = some (createToken OPEN_BR)) (hexp : ParsesTo token_array .expression (p + 1) tree q)
    (hq : token_array[q]? = some (createToken CLOSE_BR)) : ParsesTo token_array .operand p tree (q + 1) := by
  obtain ⟨bound, hexp⟩ := hexp
  refine of_succ bound fun inner _ fuel hfuel => ?_
  have hsub := hexp fuel hfuel fuel hfuel
  simp only [run] at hsub
  simp only [run, getBracketExp, curToken_ok hp, ok_bind, op_val_createToken, if_true, hsub, curToken_ok hq]
  rfl

theorem sum (hsum : ParsesTo token_array .sum p tree q) (hq : token_array[q]? = some next) (hnext : ¬next.IsOneOf comparisons) :
    ParsesTo token_array .expression p tree q := by
  obtain ⟨bound, hsum⟩ := hsum
  exact ⟨bound, fun inner _ fuel hfuel => getExpression_sum (hsum fuel hfuel fuel hfuel) ⟨next, hq, hnext⟩⟩

theorem comparison (hleft : ParsesTo token_array .sum p left q) (hop : op ∈ comparisons) (hq : token_array[q]? = some (createToken op))
    (hright : ParsesTo token_array .sum (q + 1) right r) : ParsesTo token_array .expression p (OP_NODE op left right) r := by
  obtain ⟨bound, hleft⟩ := hleft
  obtain ⟨bound', hright⟩ := hright
  refine ⟨max bound bound', fun inner _ fuel hfuel => ?_⟩
  have hfirst := hleft fuel (by omega) fuel (by omega)
  have hsecond := hright fuel (by omega) fuel (by omega)
  rw [Parses.run_sum] at hfirst hsecond
  simp only [run, getExpression, hfirst, ok_bind, curToken_ok hq, find?_operator hop, hsecond]
  rfl

/-! ### Variables, calls and parameters -/

theorem getNumOrName_variable (hp : token_array[p]? = some token) (htype : token.type = .VAR_T) :
    getNumOrName token_array p = .ok (VAR_NODE token.name, p + 1) := by
  simp only [getNumOrName, curToken_ok hp, ok_bind, htype, reduceCtorEq, if_false, if_true]
  rfl

theorem call (hp : token_array[p]? = some (createToken CALL)) (hname : token_array[p + 1]? = some token) (htype : token.type = .VAR_T)
    (hparams : ParsesTo token_array .parameters (p + 1 + 1) tree q) :
    ParsesTo token_array .value p (OP_NODE CALL (node .NAME_SHORT_T (.var_name token.name) .null .null) tree) q := by
  obtain ⟨bound, hparams⟩ := hparams
  refine ⟨bound, fun inner hinner fuel _ => ?_⟩
  have hread := hparams inner hinner inner hinner
  simp only [run] at hread
  simp only [run, getCall, curToken_ok hp, ok_bind, check_createToken, if_true, getNumOrName_variable hname htype, hread]
  rfl

theorem inOut (hp : token_array[p]? = some (createToken op)) (hop : op = IN ∨ op = OUT)
    (hparams : ParsesTo token_array .parameters (p + 1) tree q) : ParsesTo token_array .value p (OP_NODE op tree null) q := by
  obtain ⟨bound, hparams⟩ := hparams
  refine ⟨bound, fun inner hinner fuel _ => ?_⟩
  have hread := hparams inner hinner inner hinner
  simp only [run] at hread
  rcases hop with rfl | rfl
  · simp only [run, getCall, getInOut, curToken_ok hp, ok_bind, check_createToken, reduceCtorEq, if_false, if_true, hread]
    rfl
  · simp only [run, getCall, getInOut, curToken_ok hp, ok_bind, check_createToken, reduceCtorEq, if_false, if_true, hread]
    rfl

theorem plain (hp : token_array[p]? = some token) (hbegins : CanBegin .argument token)
    (hargument : ParsesTo token_array .argument p tree q) : ParsesTo token_array .value p tree q := by
  have hcall : ¬token.CHECK_OP_T CALL := hbegins.not_check (by decide)
  have hin : ¬token.CHECK_OP_T IN := hbegins.not_check (by decide)
  have hout : ¬token.CHECK_OP_T OUT := hbegins.not_check (by decide)
  obtain ⟨bound, hargument⟩ := hargument
  refine ⟨bound, fun inner hinner fuel hfuel => ?_⟩
  simp only [run, getCall, getInOut, curToken_ok hp, ok_bind, if_neg hcall, if_neg hin, if_neg hout]
  exact hargument inner hinner fuel hfuel

theorem var (hp : token_array[p]? = some (createToken VAR)) (hname : token_array[p + 1]? = some token) (htype : token.type = .VAR_T)
    (hvalue : ParsesTo token_array .value (p + 1 + 1) tree q) :
    ParsesTo token_array .argument p (OP_NODE VAR (VAR_NODE token.name) tree) q := by
  obtain ⟨bound, hvalue⟩ := hvalue
  refine of_succ bound fun inner hinner fuel hfuel => ?_
  have hread := hvalue inner hinner fuel hfuel
  simp only [run] at hread
  simp only [run, getVar, curToken_ok hp, ok_bind, check_createToken, if_true, getNumOrName_variable hname htype, hread]
  rfl

theorem bare (hp : token_array[p]? = some token) (hbegins : CanBegin .expression token)
    (hexp : ParsesTo token_array .expression p tree q) : ParsesTo token_array .argument p tree q := by
  have hvar : ¬token.CHECK_OP_T VAR := hbegins.not_check (by decide)
  obtain ⟨bound, hexp⟩ := hexp
  refine of_succ bound fun inner _ fuel hfuel => ?_
  simp only [run, getVar, curToken_ok hp, ok_bind, if_neg hvar]
  exact hexp fuel hfuel fuel hfuel

theorem noArguments (hp : token_array[p]? = some (createToken CLOSE_BR)) : ParsesTo token_array .arguments p null (p + 1) := by
  refine ⟨0, fun inner _ fuel _ => ?_⟩
  simp only [run, curToken_ok hp, ok_bind, op_val_createToken, if_true]
  rfl

theorem another (hp : token_array[p]? = some token) (hbegins : CanBegin .argument token)
    (hargument : ParsesTo token_array .argument p left q) (hrest : ParsesTo token_array .parameters q right r) :
    ParsesTo token_array .arguments p (OP_NODE PARAM left right) r := by
  have hclose : token.op_val ≠ some CLOSE_BR :=
    by
    have hnot : ¬token.IsOneOf [CLOSE_BR] := hbegins.not_isOneOf (by decide) (by decide)
    exact fun hval => hnot ⟨CLOSE_BR, by decide, hval⟩
  obtain ⟨bound, hargument⟩ := hargument
  obtain ⟨bound', hrest⟩ := hrest
  refine ⟨max bound bound', fun inner _ fuel hfuel => ?_⟩
  have hfirst := hargument fuel (by omega) fuel (by omega)
  have hnext := hrest fuel (by omega) fuel (by omega)
  simp only [run] at hfirst hnext
  simp only [run, curToken_ok hp, ok_bind, if_neg hclose, hfirst, hnext]
  rfl

theorem opened (hp : token_array[p]? = some (createToken OPEN_BR)) (hargs : ParsesTo token_array .arguments (p + 1) tree q) :
    ParsesTo token_array .parameters p tree q := by
  obtain ⟨bound, hargs⟩ := hargs
  refine of_succ bound fun inner _ fuel hfuel => ?_
  simp only [run, getParam, curToken_ok hp, ok_bind, check_createToken, if_true]
  exact hargs fuel hfuel fuel hfuel

theorem unopened (hp : token_array[p]? = some token) (hopen : ¬token.CHECK_OP_T OPEN_BR)
    (hargs : ParsesTo token_array .arguments p tree q) : ParsesTo token_array .parameters p tree q := by
  obtain ⟨bound, hargs⟩ := hargs
  refine of_succ bound fun inner _ fuel hfuel => ?_
  have harguments := hargs fuel hfuel fuel hfuel
  simp only [run, curToken_ok hp, ok_bind] at harguments
  simp only [run, getParam, curToken_ok hp, ok_bind, if_neg hopen]
  exact harguments

/-! ### Statements -/

theorem statement (hp : token_array[p]? = some token) (hbegins : CanBegin .value token)
    (hvalue : ParsesTo token_array .value p tree q) : ParsesTo token_array .item p tree q := by
  have hfunc : ¬token.CHECK_OP_T FUNC := hbegins.not_check (by decide)
  have hif : ¬token.CHECK_OP_T IF := hbegins.not_check (by decide)
  have hwhile : ¬token.CHECK_OP_T WHILE := hbegins.not_check (by decide)
  have hret : ¬token.CHECK_OP_T RET := hbegins.not_check (by decide)
  obtain ⟨bound, hvalue⟩ := hvalue
  refine ⟨bound, fun inner _ fuel hfuel => ?_⟩
  simp only [run, getFunction, getIfElse, getWhile, getRet, curToken_ok hp, ok_bind, if_neg hfunc, if_neg hif, if_neg hwhile,
    if_neg hret]
  exact hvalue fuel hfuel fuel hfuel

theorem ret (hp : token_array[p]? = some (createToken RET)) (hparams : ParsesTo token_array .parameters (p + 1) tree q) :
    ParsesTo token_array .item p (OP_NODE RET tree null) q := by
  obtain ⟨bound, hparams⟩ := hparams
  refine ⟨bound, fun inner _ fuel hfuel => ?_⟩
  have hread := hparams fuel hfuel fuel hfuel
  simp only [run] at hread
  simp only [run, getFunction, getIfElse, getWhile, getRet, curToken_ok hp, ok_bind, check_createToken, reduceCtorEq, if_false, if_true,
    hread]
  rfl

theorem loop (hp : token_array[p]? = some (createToken WHILE)) (hcondition : ParsesTo token_array .expression (p + 1) left q)
    (hbody : ParsesTo token_array .block q right r) : ParsesTo token_array .item p (OP_NODE WHILE left right) r := by
  obtain ⟨bound, hcondition⟩ := hcondition
  obtain ⟨bound', hbody⟩ := hbody
  refine ⟨max bound bound', fun inner _ fuel hfuel => ?_⟩
  have hfirst := hcondition fuel (by omega) fuel (by omega)
  have hsecond := hbody fuel (by omega) fuel (by omega)
  simp only [run] at hfirst hsecond
  simp only [run, getFunction, getIfElse, getWhile, getCondition, curToken_ok hp, ok_bind, check_createToken, reduceCtorEq, if_false,
    if_true, hfirst, hsecond]
  rfl

theorem conditional {condition : TreeNode} {s : Nat} (hp : token_array[p]? = some (createToken IF))
    (hcondition : ParsesTo token_array .expression (p + 1) condition q) (hif : ParsesTo token_array .block q left r)
    (hr : token_array[r]? = some (createToken ELSE)) (helse : ParsesTo token_array .block (r + 1) right s) :
    ParsesTo token_array .item p (OP_NODE IF condition (OP_NODE ELSE left right)) s := by
  obtain ⟨bound, hcondition⟩ := hcondition
  obtain ⟨bound', hif⟩ := hif
  obtain ⟨bound'', helse⟩ := helse
  refine ⟨max bound (max bound' bound''), fun inner _ fuel hfuel => ?_⟩
  have hfirst := hcondition fuel (by omega) fuel (by omega)
  have hsecond := hif fuel (by omega) fuel (by omega)
  have hthird := helse fuel (by omega) fuel (by omega)
  simp only [run] at hfirst hsecond hthird
  simp only [run, getFunction, getIfElse, getCondition, curToken_ok hp, ok_bind, check_createToken, reduceCtorEq, if_false, if_true,
    hfirst, hsecond, curToken_ok hr, op_val_createToken, ne_eq, not_true_eq_false, hthird]
  rfl

theorem declaration (hp : token_array[p]? = some (createToken FUNC)) (hname : token_array[p + 1]? = some token)
    (htype : token.type = .VAR_T) (hparams : ParsesTo token_array .parameters (p + 1 + 1) left q)
    (hbody : ParsesTo token_array .block q right r) :
    ParsesTo token_array .item p (OP_NODE FUNC (node .NAME_T (.var_name token.name) left .null) right) r := by
  obtain ⟨bound, hparams⟩ := hparams
  obtain ⟨bound', hbody⟩ := hbody
  refine ⟨max bound bound', fun inner _ fuel hfuel => ?_⟩
  have hfirst := hparams fuel (by omega) fuel (by omega)
  have hsecond := hbody fuel (by omega) fuel (by omega)
  simp only [run] at hfirst hsecond
  have hheader : getFuncHeader token_array fuel (p + 1) = .ok (node .NAME_T (.var_name token.name) left .null, q) := by
    simp only [getFuncHeader, getNumOrName_variable hname htype, ok_bind, VAR_NODE, setType, hfirst, setLeft]
    rfl
  simp only [run, getFunction, curToken_ok hp, ok_bind, check_createToken, if_true, hheader, hsecond]
  rfl

theorem close (hp : token_array[p]? = some (createToken CLOSE_BR)) : ParsesTo token_array .block p null (p + 1) := by
  refine of_succ 0 fun inner _ fuel _ => ?_
  simp only [run, getStatement, curToken_ok hp, ok_bind, op_val_createToken, Option.some.injEq, reduceCtorEq, if_false, if_true]
  rfl

theorem empty (hp : token_array[p]? = some (createToken SEMI_COL)) (hblock : ParsesTo token_array .block (p + 1) tree q) :
    ParsesTo token_array .block p tree q := by
  obtain ⟨bound, hblock⟩ := hblock
  refine of_succ bound fun inner _ fuel hfuel => ?_
  simp only [run, getStatement, curToken_ok hp, ok_bind, op_val_createToken, Option.some.injEq, reduceCtorEq, if_false, if_true]
  exact hblock fuel hfuel fuel hfuel

theorem ending (hp : token_array[p]? = some (createToken TERMINATION_SYM)) : ParsesTo token_array .block p null p := by
  refine of_succ 0 fun inner _ fuel _ => ?_
  simp only [run, getStatement, curToken_ok hp, ok_bind, op_val_createToken, if_true]
  rfl

theorem item (hp : token_array[p]? = some token) (hbegins : CanBegin .item token) (hitem : ParsesTo token_array .item p left q)
    (hrest : ParsesTo token_array .block q right r) : ParsesTo token_array .block p (OP_NODE ST left right) r := by
  have hends : ¬token.IsOneOf [TERMINATION_SYM, SEMI_COL, CLOSE_BR] := hbegins.not_isOneOf (by decide) (by decide)
  have hterm : token.op_val ≠ some TERMINATION_SYM := fun h => hends ⟨_, by decide, h⟩
  have hsemi : token.op_val ≠ some SEMI_COL := fun h => hends ⟨_, by decide, h⟩
  have hclose : token.op_val ≠ some CLOSE_BR := fun h => hends ⟨_, by decide, h⟩
  obtain ⟨bound, hitem⟩ := hitem
  obtain ⟨bound', hrest⟩ := hrest
  refine of_succ (max bound bound') fun inner _ fuel hfuel => ?_
  have hfirst := hitem fuel (by omega) fuel (by omega)
  have hnext := hrest fuel (by omega) fuel (by omega)
  simp only [run] at hfirst hnext
  simp only [run, getStatement, curToken_ok hp, ok_bind, if_neg hterm, if_neg hsemi, if_neg hclose, hfirst, hnext]
  rfl

end ParsesTo

/-! ## What is spelled is understood -/

theorem ParsesTo.cast (h : ParsesTo token_array phrase p tree q) (hq : q = r) : ParsesTo token_array phrase p tree r := hq ▸ h

theorem Reaches.cast (h : Reaches token_array operators part p tree q) (hq : q = r) : Reaches token_array operators part p tree r :=
  hq ▸ h

/-- No phrase begins with an operator. -/
theorem CanBegin.not_operator (h : CanBegin phrase token) (hheads : ∀ op ∈ [ADD, SUB, MUL, DIV, POW] ++ comparisons, op ∉ phrase.heads) :
    ¬token.IsOneOf ([ADD, SUB, MUL, DIV, POW] ++ comparisons) := h.not_isOneOf (by decide) hheads

theorem not_sum_operator (hop : op ∈ comparisons) : op ∉ Phrase.sum.operators := by
  have hall : ∀ op ∈ comparisons, op ∉ Phrase.sum.operators := by decide
  exact hall op hop

theorem Spells.understood (h : Spells phrase tree tokens) : Understood token_array phrase tree tokens := by
  induction h with
  | number htype hplain =>
      intro p next hstands _
      have hname := hstands.head
      refine .literal hname (.inl htype) hplain ?_
      simp only [getNumOrName, curToken_ok hname, ok_bind, htype, if_true]
      rfl
  | «variable» htype hplain =>
      intro p next hstands _
      exact .literal hstands.head (.inr htype) hplain (ParsesTo.getNumOrName_variable hstands.head htype)
  | function hop _ ih =>
      intro p next hstands hnext
      exact (ParsesTo.function hstands.head hop (ih.parses hstands.tail hnext)).cast (by simp; omega)
  | brackets _ ih =>
      intro p next hstands _
      have hexp := ih.parses hstands.tail.first (by rw [isOneOf_createToken]; decide)
      exact (ParsesTo.brackets hstands.head hexp hstands.tail.append.head).cast (by simp; omega)
  | lone hpart ih =>
      intro p next hstands hnext
      exact .start (ih.parses hstands hnext)
  | operator hop hnot _ _ ihleft ihright =>
      intro p next hstands hnext
      have hleft := ihleft p _ hstands.first (by rwa [isOneOf_createToken])
      have hright := ihright.parses hstands.append.tail hnext
      exact (hleft.step hop hstands.append.head hright).cast (by simp; omega)
  | sum _ ih =>
      intro p next hstands hnext
      obtain ⟨hsum, hcomparison⟩ := not_isOneOf_append hnext
      exact .sum (ih.parses hstands hsum) hstands.last hcomparison
  | comparison hop _ _ ihleft ihright =>
      intro p next hstands hnext
      have hleft := ihleft.parses hstands.first (by rw [isOneOf_createToken]; exact not_sum_operator hop)
      have hright := ihright.parses hstands.append.tail (not_isOneOf_append hnext).1
      exact (ParsesTo.comparison hleft hop hstands.append.head hright).cast (by simp; omega)
  | bare hexp ih =>
      intro p next hstands hnext
      obtain ⟨token, rest, rfl, hbegins⟩ := hexp.canBegin
      exact .bare hstands.head hbegins (ih.parses hstands hnext)
  | var htype _ ih =>
      intro p next hstands hnext
      have hvalue := ih.parses hstands.tail.tail hnext
      exact (ParsesTo.var hstands.head hstands.tail.head htype hvalue).cast (by simp; omega)
  | plain hargument ih =>
      intro p next hstands hnext
      obtain ⟨token, rest, rfl, hbegins⟩ := hargument.canBegin
      exact .plain hstands.head hbegins (ih.parses hstands hnext)
  | call htype _ ih =>
      intro p next hstands _
      have hparams := ih.parses hstands.tail.tail (by simp [Phrase.operators, Token.IsOneOf])
      exact (ParsesTo.call hstands.head hstands.tail.head htype hparams).cast (by simp; omega)
  | inOut hop _ ih =>
      intro p next hstands _
      have hparams := ih.parses hstands.tail (by simp [Phrase.operators, Token.IsOneOf])
      exact (ParsesTo.inOut hstands.head hop hparams).cast (by simp; omega)
  | noArguments =>
      intro p next hstands _
      exact .noArguments hstands.head
  | another hargument hrest ih ihrest =>
      intro p next hstands hnext
      obtain ⟨token, _, rfl, hbegins⟩ := hargument.canBegin
      obtain ⟨token', _, rfl, hbegins'⟩ := hrest.canBegin
      have hfirst := ih.parses hstands.first (hbegins'.not_operator (by decide))
      exact (ParsesTo.another hstands.head hbegins hfirst (ihrest.parses hstands.append hnext)).cast (by simp; omega)
  | opened _ ih =>
      intro p next hstands hnext
      exact (ParsesTo.opened hstands.head (ih.parses hstands.tail hnext)).cast (by simp; omega)
  | unopened hopen _ ih =>
      intro p next hstands hnext
      exact .unopened hstands.head hopen (ih.parses hstands hnext)
  | statement hvalue ih =>
      intro p next hstands hnext
      obtain ⟨token, rest, rfl, hbegins⟩ := hvalue.canBegin
      exact .statement hstands.head hbegins (ih.parses hstands hnext)
  | ret _ ih =>
      intro p next hstands _
      have hparams := ih.parses hstands.tail (by simp [Phrase.operators, Token.IsOneOf])
      exact (ParsesTo.ret hstands.head hparams).cast (by simp; omega)
  | loop _ hbody ih ihbody =>
      intro p next hstands _
      obtain ⟨token, _, rfl, hbegins⟩ := hbody.canBegin
      have hcondition := ih.parses hstands.tail.first (hbegins.not_operator (by decide))
      have hblock := ihbody.parses hstands.tail.append (by simp [Phrase.operators, Token.IsOneOf])
      exact (ParsesTo.loop hstands.head hcondition hblock).cast (by simp; omega)
  | conditional _ hif _ ih ihif ihelse =>
      intro p next hstands _
      obtain ⟨token, _, rfl, hbegins⟩ := hif.canBegin
      have hcondition := ih.parses (hstands.tail.first) (hbegins.not_operator (by decide))
      have hblock := ihif.parses hstands.tail.append.first (by simp [Phrase.operators, Token.IsOneOf])
      have helse := ihelse.parses hstands.tail.append.append.tail (by simp [Phrase.operators, Token.IsOneOf])
      exact (ParsesTo.conditional hstands.head hcondition hblock hstands.tail.append.append.head helse).cast (by simp; omega)
  | declaration htype _ hbody ih ihbody =>
      intro p next hstands _
      obtain ⟨token, _, rfl, -⟩ := hbody.canBegin
      have hparams := ih.parses hstands.tail.tail.first (by simp [Phrase.operators, Token.IsOneOf])
      have hblock := ihbody.parses hstands.tail.tail.append (by simp [Phrase.operators, Token.IsOneOf])
      exact (ParsesTo.declaration hstands.head hstands.tail.head htype hparams hblock).cast (by simp; omega)
  | close =>
      intro p next hstands _
      exact .close hstands.head
  | empty _ ih =>
      intro p next hstands hnext
      exact (ParsesTo.empty hstands.head (ih.parses hstands.tail hnext)).cast (by simp; omega)
  | item hitem hrest ih ihrest =>
      intro p next hstands hnext
      obtain ⟨token, _, rfl, hbegins⟩ := hitem.canBegin
      obtain ⟨token', _, rfl, hbegins'⟩ := hrest.canBegin
      have hfirst := ih.parses hstands.first (hbegins'.not_operator (by decide))
      exact (ParsesTo.item hstands.head hbegins hfirst (ihrest.parses hstands.append hnext)).cast (by simp; omega)

end CompilerLab.Language
