import CompilerLab.Language.Lemmas.Spelling

/-!
# The parser gives the tree that is spelled

So no tokens stand for two trees.
-/

namespace CompilerLab.Language

open Options TreeNode Lib

variable {tokens tokens' : List Token} {tree tree' left right : TreeNode} {op : Options}

/-! ## Files -/

theorem SpellsFile.head (h : SpellsFile tree tokens) :
    ∃ token rest, tokens = token :: rest ∧ ¬token.IsOneOf ([ADD, SUB, MUL, DIV, POW] ++ comparisons) := by
  cases h with
  | ending => exact ⟨_, _, rfl, by rw [isOneOf_createToken]; decide⟩
  | empty h => exact ⟨_, _, rfl, by rw [isOneOf_createToken]; decide⟩
  | item hitem h =>
      obtain ⟨token, rest, rfl, hbegins⟩ := hitem.canBegin
      exact ⟨token, _, rfl, hbegins.not_operator (by decide)⟩

/-- The file is read up to its last token. -/
theorem SpellsFile.parses {token_array : List Token} {p : Nat} (h : SpellsFile tree tokens) (hdrop : token_array.drop p = tokens) :
    ∃ q token, ParsesTo token_array .block p tree q ∧ token_array[q]? = some token := by
  induction h generalizing p with
  | ending =>
      have hp : token_array[p]? = some (createToken TERMINATION_SYM) := by
        rw [← Nat.add_zero p, ← List.getElem?_drop, hdrop]
        rfl
      exact ⟨p, _, .ending hp, hp⟩
  | @empty tree tokens _ ih =>
      obtain ⟨token, rest, rfl, -⟩ := SpellsFile.head ‹_›
      have hstands : Stands token_array p [createToken SEMI_COL] token := ⟨rest, hdrop⟩
      have htail : token_array.drop (p + 1) = token :: rest := by
        rw [← List.drop_drop, hdrop]
        rfl
      obtain ⟨q, last, hblock, hq⟩ := ih htail
      exact ⟨q, last, .empty hstands.head hblock, hq⟩
  | @item tree rest tokens tokens' hitem hrest ih =>
      obtain ⟨token, list, rfl, hnext⟩ := hrest.head
      have hstands : Stands token_array p tokens token := ⟨list, hdrop⟩
      have hbehind : token_array.drop (p + tokens.length) = token :: list := by
        rw [← List.drop_drop, hdrop, List.drop_left]
      obtain ⟨q, last, hblock, hq⟩ := ih hbehind
      have hfirst := hitem.understood.parses hstands hnext
      obtain ⟨head, _, rfl, hbegins⟩ := hitem.canBegin
      exact ⟨q, last, .item hstands.head hbegins hfirst hblock, hq⟩

theorem SpellsFile.parsed (h : SpellsFile tree tokens) : ∃ bound, ∀ fuel ≥ bound, getGrammar tokens fuel = .ok tree := by
  obtain ⟨q, token, ⟨bound, hparse⟩, hq⟩ := h.parses List.drop_zero
  refine ⟨bound, fun fuel hfuel => ?_⟩
  have hblock := hparse fuel hfuel fuel hfuel
  simp only [run] at hblock
  simp only [getGrammar, hblock, ok_bind, curToken_ok hq]
  rfl

theorem SpellsFile.unique (h : SpellsFile tree tokens) (h' : SpellsFile tree' tokens) : tree = tree' := by
  obtain ⟨bound, hbound⟩ := h.parsed
  obtain ⟨bound', hbound'⟩ := h'.parsed
  have hparsed := hbound (max bound bound') (le_max_left _ _)
  rw [hbound' (max bound bound') (le_max_right _ _)] at hparsed
  exact (Except.ok.inj hparsed).symm

theorem spells_number (bits : BitVec 64) (hplain : (numberToken bits).IsPlain) : Spells .operand (DIGIT_NODE bits) [numberToken bits] :=
  .number rfl hplain

/-- What stands between `*` and `/`. -/
def power : Phrase := .level [POW] .operand

/-- What stands between `+` and `-`. -/
def product : Phrase := .level [MUL, DIV] power

theorem spells_power (hleft : Spells power left tokens) (hright : Spells .operand right tokens') :
    Spells power (OP_NODE POW left right) (tokens ++ createToken POW :: tokens') := .operator (by decide) (by decide) hleft hright

theorem spells_product (hop : op ∈ [MUL, DIV]) (hleft : Spells product left tokens) (hright : Spells power right tokens') :
    Spells product (OP_NODE op left right) (tokens ++ createToken op :: tokens') := by
  have hall : ∀ op ∈ [MUL, DIV], op ∉ power.operators := by decide
  exact .operator hop (hall op hop) hleft hright

theorem spells_sum (hop : op ∈ [ADD, SUB]) (hleft : Spells .sum left tokens) (hright : Spells product right tokens') :
    Spells .sum (OP_NODE op left right) (tokens ++ createToken op :: tokens') := by
  have hall : ∀ op ∈ [ADD, SUB], op ∉ product.operators := by decide
  exact .operator hop (hall op hop) hleft hright

/-- An operand where a sum may stand. -/
theorem Spells.alone (h : Spells .operand tree tokens) : Spells .sum tree tokens :=
  .lone (.lone (.lone h))

/-- `niukh_niukh >x 8 kus'_za_zhopu 4 kus'_za_zhopu 2 miaia 2 ^ 2`. -/
def subtractions : List Token :=
  [createToken VAR, nameToken "x" 0x1000#64, numberToken 0x4020000000000000#64, createToken SUB, numberToken 0x4010000000000000#64,
    createToken SUB, numberToken 0x4000000000000000#64, createToken MUL, numberToken 0x4000000000000000#64, createToken POW,
    numberToken 0x4000000000000000#64, createToken TERMINATION_SYM]

def subtractionsTree : TreeNode :=
  OP_NODE ST (OP_NODE VAR (VAR_NODE "x") (OP_NODE SUB (OP_NODE SUB (DIGIT_NODE 0x4020000000000000#64) (DIGIT_NODE 0x4010000000000000#64))
    (OP_NODE MUL (DIGIT_NODE 0x4000000000000000#64) (OP_NODE POW (DIGIT_NODE 0x4000000000000000#64) (DIGIT_NODE 0x4000000000000000#64)))))
    .null

theorem spells_subtractions : SpellsFile subtractionsTree subtractions := by
  have h8 := spells_number 0x4020000000000000#64 (by decide)
  have h4 := spells_number 0x4010000000000000#64 (by decide)
  have h2 := spells_number 0x4000000000000000#64 (by decide)
  have hproduct := spells_product (by decide : MUL ∈ [MUL, DIV]) (.lone (.lone h2)) (spells_power (.lone h2) h2)
  have hdifference := spells_sum (by decide : SUB ∈ [ADD, SUB]) h8.alone (.lone (.lone h4))
  have hsum := spells_sum (by decide : SUB ∈ [ADD, SUB]) hdifference hproduct
  have hvar := @Spells.var (nameToken "x" 0x1000#64) _ _ rfl (.plain (.bare (.sum hsum)))
  exact .item (.statement (.plain hvar)) .ending

end CompilerLab.Language
