import CompilerLab.Language.Theorems.Spelling
import CompilerLab.Language.Theorems.TreeFile

/-!
# From the tokens to the console

The frontend, the file, the backend, the assembler and the processor one after the other.
-/

namespace CompilerLab.Language

open Options TreeNode Asm


/-! ## Every program can be spelled -/

section
variable {address : String → BitVec 64} (haddress : ∀ name, (nameToken name (address name)).IsPlain)
include haddress

theorem Expr.spells (e : Expr) (h : e.Plain) : Spells .operand e.tree (e.tokens address) := by
  induction e with
  | number bits => exact .number rfl h
  | «variable» name => exact @Spells.variable (nameToken name (address name)) rfl (haddress name)
  | unary op operand ih =>
      refine .function ?_ (ih h)
      cases op <;> decide
  | binary op left right ihleft ihright =>
      have hleft := ihleft h.1
      have hright := ihright h.2
      have hexp : Spells .expression (OP_NODE op.option left.tree right.tree)
          (left.tokens address ++ createToken op.option :: right.tokens address) := by
        cases op with
        | ADD => exact .sum (spells_sum (by decide) hleft.alone (.lone (.lone hright)))
        | SUB => exact .sum (spells_sum (by decide) hleft.alone (.lone (.lone hright)))
        | MUL => exact .sum (.lone (spells_product (by decide) (.lone (.lone hleft)) (.lone hright)))
        | DIV => exact .sum (.lone (spells_product (by decide) (.lone (.lone hleft)) (.lone hright)))
      exact .brackets hexp

theorem spells_arguments (names : List String) :
    Spells .arguments (paramsTree names) (names.map (fun name => nameToken name (address name)) ++ [createToken CLOSE_BR]) := by
  induction names with
  | nil => exact .noArguments
  | cons name names ih =>
      have hname : Spells .argument (VAR_NODE name) [nameToken name (address name)] :=
        .bare (.sum (Spells.alone (@Spells.variable (nameToken name (address name)) rfl (haddress name))))
      have hrest : Spells .parameters (paramsTree names)
          (names.map (fun name => nameToken name (address name)) ++ [createToken CLOSE_BR]) := by
        cases names with
        | nil => exact .unopened (by simp) ih
        | cons name' names' => exact .unopened (fun hcheck => by cases hcheck.1) ih
      exact @Spells.another _ _ [nameToken name (address name)] _ hname hrest

theorem spells_params (names : List String) : Spells .parameters (paramsTree names) (paramsTokens address names) :=
  .opened (spells_arguments haddress names)

theorem spells_call (func_name : String) (args : List String) :
    Spells .value (callTree func_name args) (callTokens address func_name args) :=
  @Spells.call (nameToken func_name (address func_name)) _ _ rfl (spells_params haddress args)

/-- As a list and as a single statement. -/
theorem Stmt.spells (body : Stmt) : (body.IsBlock → Spells .block body.tree (body.tokens address)) ∧
    (body.IsItem → Spells .item body.tree (body.tokens address)) := by
  induction body with
  | skip => exact ⟨fun _ => .close, fun h => by simp [Stmt.IsItem] at h⟩
  | seq first rest ihfirst ihrest =>
      refine ⟨fun h => ?_, fun h => by simp [Stmt.IsItem] at h⟩
      rw [Stmt.IsBlock] at h
      exact .item (ihfirst.2 h.1) (ihrest.1 h.2)
  | set name value =>
      refine ⟨fun h => by simp [Stmt.IsBlock] at h, fun h => ?_⟩
      rw [Stmt.IsItem] at h
      have hvalue : Spells .value value.tree (value.tokens address) := .plain (.bare (.sum (value.spells haddress h).alone))
      exact .statement (.plain (@Spells.var (nameToken name (address name)) _ _ rfl hvalue))
  | setCall name func_name args =>
      refine ⟨fun h => by simp [Stmt.IsBlock] at h, fun _ => ?_⟩
      exact .statement (.plain (@Spells.var (nameToken name (address name)) _ _ rfl (spells_call haddress func_name args)))
  | call func_name args => exact ⟨fun h => by simp [Stmt.IsBlock] at h, fun _ => .statement (spells_call haddress func_name args)⟩
  | input names => exact ⟨fun h => by simp [Stmt.IsBlock] at h, fun _ => .statement (.inOut (.inl rfl) (spells_params haddress names))⟩
  | output names => exact ⟨fun h => by simp [Stmt.IsBlock] at h, fun _ => .statement (.inOut (.inr rfl) (spells_params haddress names))⟩
  | ret names => exact ⟨fun h => by simp [Stmt.IsBlock] at h, fun _ => .ret (spells_params haddress names)⟩
  | cond comparison left right if_body else_body ihif ihelse =>
      refine ⟨fun h => by simp [Stmt.IsBlock] at h, fun h => ?_⟩
      rw [Stmt.IsItem] at h
      obtain ⟨hleft, hright, hif, helse⟩ := h
      have hop : comparison.option ∈ comparisons := by cases comparison <;> decide
      exact .conditional (.comparison hop (left.spells haddress hleft).alone (right.spells haddress hright).alone) (ihif.1 hif)
        (ihelse.1 helse)

theorem Program.spells {p : Program} (h : ∀ f ∈ p, f.body.IsBlock) : SpellsFile p.tree (p.tokens address) := by
  induction p with
  | nil => exact .ending
  | cons f p ih =>
      have hbody := (f.body.spells haddress).1 (h f List.mem_cons_self)
      have hfunc : Spells .item f.tree (f.tokens address) :=
        @Spells.declaration (nameToken f.name (address f.name)) _ _ _ _ rfl (spells_params haddress f.params) hbody
      exact .item hfunc (ih fun g hg => h g (List.mem_cons_of_mem _ hg))

end

/-! ## All passes -/

variable {d : Doubles} {lg : BitVec 64 → Str} {lines : List Line} {RawCmd : List Str} {tokens : List Token}

/-- The backend gets the tree the frontend has written, and prints the same for it. -/
theorem readTree_generated {tree : TreeNode} {text : Str} {strtod : Str → BitVec 64} (env : Environment) (h : Block tree)
    (hfits : tree.Fits lg strtod) (htext : recPrintNode lg tree = some text) (hlength : text.length < MAX_SRC_LEN)
    (hroom : tree.fileTokens.length < MAX_TOKENS) :
    ∃ root, readTree strtod text = some root ∧ generated env root = generated env tree := by
  have hnull : tree ≠ null := by
    rintro rfl
    cases htext
  obtain ⟨text', htext', hread⟩ := readTree_of_printed (h.filed hfits) hfits hnull
  cases htext.symm.trans htext'
  rw [if_pos ⟨hlength, hroom⟩] at hread
  refine ⟨tree.asRead, hread, ?_⟩
  rw [generated, printCmdsInFile_asRead, generated]

/-- `main` reads a number and writes its square. -/
def square : Program :=
  [{ name := "main", params := [],
      body := .seq (.input ["x"]) (.seq (.setCall "y" "square" ["x"]) (.seq (.output ["y"]) (.seq (.ret []) .skip))) },
    { name := "square", params := ["n"], body := .seq (.set "r" (.binary .MUL (.variable "n") (.variable "n"))) (.seq (.ret ["r"]) .skip) }]

theorem spells_square : SpellsFile square.tree (square.tokens fun _ => 0x1000#64) := by
  have hplain : (nameToken "" 0x1000#64).IsPlain := by decide
  refine Program.spells (fun _ => hplain) fun f hf => ?_
  simp only [square, List.mem_cons, List.not_mem_nil, or_false] at hf
  rcases hf with rfl | rfl <;> simp [Stmt.IsBlock, Stmt.IsItem, Expr.Plain]

/-- The file of `square`. -/
def squareText : Str := (recPrintNode integerText square.tree).getD []

end CompilerLab.Language
