import CompilerLab.Language.Lemmas.Bounds
import CompilerLab.Language.Lemmas.Fuel

/-!
# When the parser terminates

It returns exactly on the programs of the grammar. Where a statement or an argument takes no token, its list goes on from the
same token for ever; where a bracket does not match or a function has no name there is nothing to return.
-/

namespace CompilerLab.Language

open Options TreeNode

variable {token_array : List Token}

/-! ## Tokens that begin no statement -/

/-- A statement may begin with the token. -/
def Token.BeginsStatement (token : Token) : Prop :=
  token.IsLiteral ∨ token.IsFunction ∨ token.IsOneOf ([OPEN_BR, ADD, SUB, MUL, DIV, POW] ++ comparisons) ∨
    ∃ op ∈ [FUNC, IF, WHILE, RET, CALL, IN, OUT, VAR], token.CHECK_OP_T op

namespace Token

variable {token : Token} (h : ¬token.BeginsStatement)
include h

theorem not_check {op : Options} (hop : op ∈ [FUNC, IF, WHILE, RET, CALL, IN, OUT, VAR]) : ¬token.CHECK_OP_T op :=
  fun hcheck => h (.inr (.inr (.inr ⟨op, hop, hcheck⟩)))

theorem not_isOneOf {operators : List Options} (hsub : operators ⊆ [OPEN_BR, ADD, SUB, MUL, DIV, POW] ++ comparisons) :
    ¬token.IsOneOf operators := by
  rintro ⟨op, hop, heq⟩
  exact h (.inr (.inr (.inl ⟨op, hsub hop, heq⟩)))

end Token

theorem At.absurd {p : Nat} {token : Token} (htoken : token_array[p]? = some token) {holds : Token → Prop}
    (hat : At token_array p holds) (hnot : ¬holds token) : False := by
  obtain ⟨_, htoken', h⟩ := hat
  cases htoken.symm.trans htoken'
  exact hnot h

section
variable {p : Nat} {token : Token} (htoken : token_array[p]? = some token) (hbegins : ¬token.BeginsStatement)
include htoken hbegins

theorem Derives.operand_empty {q : Nat} (h : Derives token_array .operand p q) : q = p := by
  cases h with
  | brackets hat _ _ =>
      exact (hat.absurd htoken fun hop => Token.not_isOneOf hbegins (by decide) ⟨OPEN_BR, List.mem_singleton_self _, hop⟩).elim
  | function hat _ => exact (hat.absurd htoken fun hop => hbegins (.inr (.inl hop.2))).elim
  | literal hat => exact (hat.absurd htoken fun hop => hbegins (.inl hop.2)).elim
  | noOperand _ => rfl

theorem Derives.level_empty {operators : List Options} {part : Phrase} (hpart : ∀ {q}, Derives token_array part p q → q = p)
    (hsub : operators ⊆ [OPEN_BR, ADD, SUB, MUL, DIV, POW] ++ comparisons) {q : Nat}
    (h : Derives token_array (.level operators part) p q) : q = p := by
  cases h with
  | last h _ => exact hpart h
  | operator h hat _ =>
      cases hpart h
      exact (hat.absurd htoken (Token.not_isOneOf hbegins hsub)).elim

theorem Derives.expression_empty {q : Nat} (h : Derives token_array .expression p q) : q = p := by
  have hsum : ∀ {q}, Derives token_array .sum p q → q = p :=
    level_empty htoken hbegins (level_empty htoken hbegins (level_empty htoken hbegins (operand_empty htoken hbegins)
      (by decide)) (by decide)) (by decide)
  cases h with
  | sum h _ => exact hsum h
  | comparison h hat _ =>
      cases hsum h
      exact (hat.absurd htoken (Token.not_isOneOf hbegins (by decide))).elim

theorem Derives.item_empty {q : Nat} (h : Derives token_array .item p q) : q = p := by
  have hnot : ∀ op ∈ [FUNC, IF, WHILE, RET, CALL, IN, OUT, VAR], ¬At token_array p (·.CHECK_OP_T op) :=
    fun op hop hat => hat.absurd htoken (Token.not_check hbegins hop)
  cases h with
  | declaration hat _ _ _ => exact absurd hat (hnot FUNC (by decide))
  | noElse hat _ _ _ => exact absurd hat (hnot IF (by decide))
  | conditional hat _ _ _ _ => exact absurd hat (hnot IF (by decide))
  | loop hat _ _ => exact absurd hat (hnot WHILE (by decide))
  | ret hat _ => exact absurd hat (hnot RET (by decide))
  | statement _ hvalue =>
      cases hvalue with
      | call hat _ _ => exact absurd hat (hnot CALL (by decide))
      | inOut hat _ =>
          obtain ⟨_, hat, hin | hout⟩ := hat
          · exact absurd ⟨_, hat, hin⟩ (hnot IN (by decide))
          · exact absurd ⟨_, hat, hout⟩ (hnot OUT (by decide))
      | plain _ hargument =>
          cases hargument with
          | var hat _ _ => exact absurd hat (hnot VAR (by decide))
          | noName hat _ _ => exact absurd hat (hnot VAR (by decide))
          | bare _ hexp => exact hexp.expression_empty htoken hbegins

/-- No list of statements goes past a token that neither begins nor ends one. -/
theorem Derives.not_block (hends : ¬token.IsOneOf [TERMINATION_SYM, SEMI_COL, CLOSE_BR]) {q : Nat} :
    ¬Derives token_array .block p q := by
  intro h
  cases h with
  | ending hat => exact hat.absurd htoken fun hop => hends ⟨_, by simp, hop⟩
  | empty hat _ => exact hat.absurd htoken fun hop => hends ⟨_, by simp, hop⟩
  | close hat => exact hat.absurd htoken fun hop => hends ⟨_, by simp, hop⟩
  | item _ hitem hlt _ => exact absurd (hitem.item_empty htoken hbegins) (Nat.ne_of_gt hlt)

end

/-! ## `GetGrammar` -/

/-- `GetGrammar` returns after finitely many calls, and no call reads a token behind the end of the array. -/
def Terminates (token_array : List Token) : Prop :=
  (∃ fuel root, getGrammar token_array fuel = .ok root) ∧ ∀ fuel, getGrammar token_array fuel ≠ .error .pastEnd

theorem getGrammar_derives {fuel : Nat} {root : TreeNode} (h : getGrammar token_array fuel = .ok root) :
    ∃ q, Derives token_array .block 0 q := by
  simp only [getGrammar, bind_ok] at h
  obtain ⟨⟨tree, q⟩, hstatement, -⟩ := h
  exact ⟨q, getStatement_derives hstatement⟩

theorem Derives.getGrammar (hterminated : Terminated token_array) {q : Nat} (h : Derives token_array .block 0 q) :
    ∃ fuel root, getGrammar token_array fuel = .ok root := by
  obtain ⟨bound, hblock⟩ := h.parses
  obtain ⟨root, hroot⟩ := hblock bound (le_refl _) bound (le_refl _)
  simp only [run] at hroot
  have hpos : 0 < token_array.length := by
    obtain ⟨last, hlast, -⟩ := hterminated
    exact List.length_pos_of_mem (List.mem_of_getLast? hlast)
  have hq := getStatement_inside hterminated bound 0 hpos
  rw [hroot] at hq
  refine ⟨bound, root, ?_⟩
  simp only [Language.getGrammar, hroot, ok_bind, curToken_ok (List.getElem?_eq_getElem hq)]
  rfl

theorem terminates_iff (hterminated : Terminated token_array) :
    Terminates token_array ↔ ∃ q, Derives token_array .block 0 q := by
  constructor
  · rintro ⟨⟨fuel, root, hroot⟩, -⟩
    exact getGrammar_derives hroot
  · rintro ⟨q, h⟩
    exact ⟨h.getGrammar hterminated, getGrammar_inside hterminated⟩

/-- `niukh_niukh >x 1`. -/
def assignment : List Token :=
  [createToken VAR, { type := .VAR_T, value := 0x1000#64, name := "x" }, { type := .NUM_T, value := 0x3ff0000000000000#64, name := "" },
    createToken TERMINATION_SYM]

theorem terminates_iff_assignment : Terminates assignment ↔ ∃ q, Derives assignment .block 0 q :=
  terminates_iff ⟨createToken TERMINATION_SYM, rfl, by decide⟩

/-- `ai_ladno`. -/
def strayElse : List Token := [createToken ELSE, createToken TERMINATION_SYM]

theorem strayElse_not_terminates : Terminated strayElse ∧ ¬Terminates strayElse := by
  refine ⟨⟨createToken TERMINATION_SYM, rfl, by decide⟩, ?_⟩
  rintro ⟨⟨fuel, root, hroot⟩, -⟩
  obtain ⟨q, h⟩ := getGrammar_derives hroot
  have hop : (createToken ELSE).op_val = some ELSE := by decide
  have htoken : strayElse[0]? = some (createToken ELSE) := rfl
  refine h.not_block htoken ?_ ?_
  · rintro (hliteral | ⟨op, hop', hcheck⟩ | ⟨op, hop', hcheck⟩ | ⟨op, hop', hcheck⟩)
    · simp [Token.IsLiteral, createToken] at hliteral
    · rw [← Option.some.inj (hop.symm.trans hcheck.2)] at hop'
      exact absurd hop' (by decide)
    · rw [← Option.some.inj (hop.symm.trans hcheck)] at hop'
      exact absurd hop' (by decide)
    · rw [← Option.some.inj (hop.symm.trans hcheck.2)] at hop'
      exact absurd hop' (by decide)
  · rintro ⟨op, hop', hcheck⟩
    rw [← Option.some.inj (hop.symm.trans hcheck)] at hop'
    exact absurd hop' (by decide)

end CompilerLab.Language
