import CompilerLab.Language.Parser

/-!
# The parser stays inside the array

No parser takes the token that ends the array, so none reads behind it.
-/

namespace CompilerLab.Language

open Options TreeNode

/-- The last token of the array is the termination token. -/
def Terminated (token_array : List Token) : Prop := ∃ last, token_array.getLast? = some last ∧ last.CHECK_OP_T TERMINATION_SYM

/-- The call does not read behind the array, and what it returns is as said. -/
def Inside {α : Type} (post : α → Prop) : Except Fault α → Prop
  | .ok a => post a
  | .error fault => fault ≠ .pastEnd

theorem Inside.bind {α β : Type} {pre : α → Prop} {post : β → Prop} {x : Except Fault α} {f : α → Except Fault β}
    (hx : Inside pre x) (hf : ∀ a, pre a → Inside post (f a)) : Inside post (x >>= f) := by
  cases x with
  | error fault => exact hx
  | ok a => exact hf a hx

theorem Inside.ne_pastEnd {α : Type} {post : α → Prop} {x : Except Fault α} (h : Inside post x) : x ≠ .error .pastEnd := by
  rintro rfl
  exact h rfl

/-- From every token of the array the parser gets to a token of the array. -/
def StaysInside (token_array : List Token) (parse : Nat → Result) : Prop :=
  ∀ p < token_array.length, Inside (fun read => read.2 < token_array.length) (parse p)

variable {token_array : List Token}

theorem curToken_inside {p : Nat} (hp : p < token_array.length) :
    Inside (fun token => token_array[p]? = some token) (curToken token_array p) := by
  rw [curToken, List.getElem?_eq_getElem hp]
  rfl

theorem setType_inside (type : Types) (tree : TreeNode) : Inside (fun _ => True) (setType type tree) := by
  cases tree with
  | null => exact Fault.noConfusion
  | node => trivial

theorem setLeft_inside (left tree : TreeNode) : Inside (fun _ => True) (setLeft left tree) := by
  cases tree with
  | null => exact Fault.noConfusion
  | node => trivial

section
variable (hterminated : Terminated token_array)
include hterminated

/-- Behind a token that is not the termination token there is another one. -/
theorem Terminated.next {p : Nat} {token : Token} (htoken : token_array[p]? = some token)
    (hne : ¬token.CHECK_OP_T TERMINATION_SYM) : p + 1 < token_array.length := by
  obtain ⟨last, hlast, hterm⟩ := hterminated
  have hp : p < token_array.length := List.getElem?_eq_some_iff.1 htoken |>.1
  by_contra hend
  have hpos : p = token_array.length - 1 := by omega
  rw [List.getLast?_eq_getElem?, ← hpos, htoken] at hlast
  cases hlast
  exact hne hterm

theorem Terminated.next_op_val {p : Nat} {token : Token} (htoken : token_array[p]? = some token) {op : Options}
    (hop : token.op_val = some op) (hne : op ≠ TERMINATION_SYM) : p + 1 < token_array.length :=
  hterminated.next htoken fun h => hne (Option.some.inj (hop.symm.trans h.2))

theorem Terminated.next_find? {p : Nat} {token : Token} (htoken : token_array[p]? = some token) {operators : List Options}
    (hterm : TERMINATION_SYM ∉ operators) {op : Options}
    (hop : operators.find? (fun op => token.op_val = some op) = some op) : p + 1 < token_array.length :=
  hterminated.next_op_val htoken (by simpa using List.find?_some hop) fun h => hterm (h ▸ List.mem_of_find?_eq_some hop)

theorem getNumOrName_inside : StaysInside token_array (getNumOrName token_array) := by
  refine fun p hp => (curToken_inside hp).bind fun token htoken => ?_
  split_ifs with hnum hvar
  · exact hterminated.next htoken fun h => absurd (hnum.symm.trans h.1) (by decide)
  · exact hterminated.next htoken fun h => absurd (hvar.symm.trans h.1) (by decide)
  · exact hp

theorem operationLoop_inside {operators : List Options} (hterm : TERMINATION_SYM ∉ operators) {operand : Nat → Result}
    (hoperand : StaysInside token_array operand) (fuel : Nat) (top : TreeNode) :
    StaysInside token_array (operationLoop token_array operators operand fuel top) := by
  induction fuel generalizing top with
  | zero => exact fun p _ => Fault.noConfusion
  | succ fuel ih =>
      refine fun p hp => (curToken_inside hp).bind fun token htoken => ?_
      split
      case h_1 last_op hop => exact (hoperand _ (hterminated.next_find? htoken hterm hop)).bind fun read hread => ih _ _ hread
      case h_2 hop => exact hp

theorem getLevel_inside {operators : List Options} (hterm : TERMINATION_SYM ∉ operators) {operand : Nat → Result}
    (hoperand : StaysInside token_array operand) (fuel : Nat) :
    StaysInside token_array (getLevel token_array operators operand fuel) :=
  fun p hp => (hoperand p hp).bind fun read hread => operationLoop_inside hterminated hterm hoperand fuel read.1 read.2 hread

theorem getExpression_inside {bracketExp : Nat → Result} (hbracket : StaysInside token_array bracketExp) (fuel : Nat) :
    StaysInside token_array (getExpression token_array bracketExp fuel) := by
  have hsum : StaysInside token_array (getAddSub token_array bracketExp fuel) :=
    getLevel_inside hterminated (by decide) (getLevel_inside hterminated (by decide)
      (getLevel_inside hterminated (by decide) hbracket fuel) fuel) fuel
  refine fun p hp => (hsum p hp).bind fun left hleft => (curToken_inside hleft).bind fun token htoken => ?_
  split
  case h_1 operation hop =>
    exact (hsum _ (hterminated.next_find? htoken (by decide) hop)).bind fun right hright => hright
  case h_2 => exact hleft

theorem getSpecOperations_inside {bracketExp : Nat → Result} (hbracket : StaysInside token_array bracketExp) :
    StaysInside token_array (getSpecOperations token_array bracketExp) := by
  refine fun p hp => (curToken_inside hp).bind fun token htoken => ?_
  split
  case h_1 operation hop =>
    have hcheck : token.CHECK_OP_T operation := by simpa using List.find?_some hop
    have hne : operation ≠ TERMINATION_SYM := by
      rintro rfl
      exact absurd (List.mem_of_find?_eq_some hop) (by decide)
    exact (hbracket _ (hterminated.next_op_val htoken hcheck.2 hne)).bind fun read hread => hread
  case h_2 => exact getNumOrName_inside hterminated p hp

theorem getBracketExp_inside (fuel : Nat) : StaysInside token_array (getBracketExp token_array fuel) := by
  induction fuel with
  | zero => exact fun p _ => Fault.noConfusion
  | succ fuel ih =>
      refine fun p hp => (curToken_inside hp).bind fun token htoken => ?_
      split_ifs with hopen
      · refine (getExpression_inside hterminated ih fuel _ (hterminated.next_op_val htoken hopen (by decide))).bind
          fun read hread => (curToken_inside hread).bind fun close hclose => ?_
        split_ifs with hbr
        · exact hterminated.next_op_val hclose hbr (by decide)
        · exact Fault.noConfusion
      · exact getSpecOperations_inside hterminated ih p hp

theorem getCall_inside {param var : Nat → Result} (hparam : StaysInside token_array param) (hvar : StaysInside token_array var) :
    StaysInside token_array (getCall token_array param var) := by
  refine fun p hp => (curToken_inside hp).bind fun token htoken => ?_
  split_ifs with hcall
  · refine (getNumOrName_inside hterminated _ (hterminated.next_op_val htoken hcall.2 (by decide))).bind fun name hname =>
      (hparam _ hname).bind fun params hparams => (setType_inside _ _).bind fun _ _ => hparams
  · refine (curToken_inside hp).bind fun token htoken => ?_
    split_ifs with hin hout
    · exact (hparam _ (hterminated.next_op_val htoken hin.2 (by decide))).bind fun params hparams => hparams
    · exact (hparam _ (hterminated.next_op_val htoken hout.2 (by decide))).bind fun params hparams => hparams
    · exact hvar p hp

theorem getVar_inside {param : Nat → Result} (hparam : StaysInside token_array param) (fuel : Nat) :
    StaysInside token_array (getVar token_array param fuel) := by
  induction fuel with
  | zero => exact fun p _ => Fault.noConfusion
  | succ fuel ih =>
      refine fun p hp => (curToken_inside hp).bind fun token htoken => ?_
      split_ifs with hvar
      · exact (getNumOrName_inside hterminated _ (hterminated.next_op_val htoken hvar.2 (by decide))).bind fun name hname =>
          (getCall_inside hterminated hparam ih _ hname).bind fun val hval => hval
      · exact getExpression_inside hterminated (getBracketExp_inside hterminated fuel) fuel p hp

theorem getParam_inside (fuel : Nat) : StaysInside token_array (getParam token_array fuel) := by
  induction fuel with
  | zero => exact fun p _ => Fault.noConfusion
  | succ fuel ih =>
      refine fun p hp => (curToken_inside hp).bind fun token htoken => ?_
      have hp' : (if token.CHECK_OP_T OPEN_BR then p + 1 else p) < token_array.length := by
        split_ifs with hopen
        · exact hterminated.next_op_val htoken hopen.2 (by decide)
        · exact hp
      dsimp only
      generalize (if token.CHECK_OP_T OPEN_BR then p + 1 else p) = p' at hp' ⊢
      refine (curToken_inside hp').bind fun token' htoken' => ?_
      split_ifs with hclose
      · exact hterminated.next_op_val htoken' hclose (by decide)
      · exact (getVar_inside hterminated ih fuel _ hp').bind fun param hparam => (ih _ hparam).bind fun next hnext => hnext

theorem getRet_inside (fuel : Nat) : StaysInside token_array (getRet token_array fuel) := by
  refine fun p hp => (curToken_inside hp).bind fun token htoken => ?_
  have hparam := getParam_inside hterminated fuel
  split_ifs with hret
  · exact (hparam _ (hterminated.next_op_val htoken hret.2 (by decide))).bind fun params hparams => hparams
  · exact getCall_inside hterminated hparam (getVar_inside hterminated hparam fuel) p hp

theorem getCondition_inside (fuel : Nat) : StaysInside token_array (getCondition token_array fuel) :=
  getExpression_inside hterminated (getBracketExp_inside hterminated fuel) fuel

theorem getFuncHeader_inside (fuel : Nat) : StaysInside token_array (getFuncHeader token_array fuel) := fun p hp =>
  (getNumOrName_inside hterminated p hp).bind fun _ hname => (setType_inside _ _).bind fun _ _ =>
    (getParam_inside hterminated fuel _ hname).bind fun _ hparams => (setLeft_inside _ _).bind fun _ _ => hparams

section
variable {statement : Nat → Result} (hstatement : StaysInside token_array statement) (fuel : Nat)
include hstatement

theorem getWhile_inside : StaysInside token_array (getWhile token_array fuel statement) := by
  refine fun p hp => (curToken_inside hp).bind fun token htoken => ?_
  split_ifs with hwhile
  · exact (getCondition_inside hterminated fuel _ (hterminated.next_op_val htoken hwhile.2 (by decide))).bind
      fun condition hcondition => (hstatement _ hcondition).bind fun body hbody => hbody
  · exact getRet_inside hterminated fuel p hp

theorem getIfElse_inside : StaysInside token_array (getIfElse token_array fuel statement) := by
  refine fun p hp => (curToken_inside hp).bind fun token htoken => ?_
  split_ifs with hif
  · refine (getCondition_inside hterminated fuel _ (hterminated.next_op_val htoken hif.2 (by decide))).bind
      fun condition hcondition => (hstatement _ hcondition).bind fun body hbody => (curToken_inside hbody).bind
      fun token' htoken' => ?_
    split_ifs with helse
    · exact hbody
    · exact (hstatement _ (hterminated.next_op_val htoken' (not_not.1 helse) (by decide))).bind fun other hother => hother
  · exact getWhile_inside hterminated hstatement fuel p hp

theorem getFunction_inside : StaysInside token_array (getFunction token_array fuel statement) := by
  refine fun p hp => (curToken_inside hp).bind fun token htoken => ?_
  split_ifs with hfunc
  · exact (getFuncHeader_inside hterminated fuel _ (hterminated.next_op_val htoken hfunc.2 (by decide))).bind
      fun header hheader => (hstatement _ hheader).bind fun body hbody => hbody
  · exact getIfElse_inside hterminated hstatement fuel p hp

end

theorem getStatement_inside (fuel : Nat) : StaysInside token_array (getStatement token_array fuel) := by
  induction fuel with
  | zero => exact fun p _ => Fault.noConfusion
  | succ fuel ih =>
      refine fun p hp => (curToken_inside hp).bind fun token htoken => ?_
      split_ifs with hterm hsemi hclose
      · exact hp
      · exact ih _ (hterminated.next_op_val htoken hsemi (by decide))
      · exact hterminated.next_op_val htoken hclose (by decide)
      · exact (getFunction_inside hterminated ih fuel p hp).bind fun left hleft => (ih _ hleft).bind fun next hnext => hnext

theorem getGrammar_inside (fuel : Nat) : getGrammar token_array fuel ≠ .error .pastEnd := by
  have hp : 0 < token_array.length := by
    obtain ⟨last, hlast, -⟩ := hterminated
    exact List.length_pos_of_mem (List.mem_of_getLast? hlast)
  have h : Inside (fun _ => True) (getGrammar token_array fuel) :=
    (getStatement_inside hterminated fuel 0 hp).bind fun root hroot => (curToken_inside hroot).bind fun token _ => trivial
  exact h.ne_pastEnd

end

end CompilerLab.Language
