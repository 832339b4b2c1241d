import CompilerLab.Lib.Segment
import CompilerLab.Derivative.Spelling

/-!
# The calculator reads what is spelled

With enough fuel the parser of a level gives the tree that the tokens stand for, so no tokens stand for two trees.
-/

namespace CompilerLab.Derivative

open TreeNode CompilerLab.Lib CompilerLab.Lib.Scanf

variable {array tokens tokens' : List Token} {level : Level} {tree left right : Tree} {token next : Token}
  {operation : Operations} {operations : List Operations} {p q r : Nat}

/-! ## The parser -/

@[simp] theorem op_val_createToken : (createToken operation).op_val = some operation := by cases operation <;> rfl

@[simp] theorem type_createToken : (createToken operation).type = .OP_T := rfl

/-- The token is none of the operations. -/
def Token.IsNone (token : Token) (operations : List Operations) : Prop :=
  ∀ operation ∈ operations, token.op_val ≠ some operation

theorem isNone_createToken (h : operation ∉ operations) : (createToken operation).IsNone operations := by
  rintro operation' hmem heq
  rw [op_val_createToken] at heq
  cases heq
  exact h hmem

theorem Token.IsNone.mono {operations' : List Operations} (h : token.IsNone operations') (hsub : operations ⊆ operations') :
    token.IsNone operations := fun operation hmem => h operation (hsub hmem)

theorem Level.operations_sub (level : Level) : level.operations ⊆ level.goingOn := by cases level <;> decide

theorem Level.goingOn_sub (level : Level) : level.operand.goingOn ⊆ level.goingOn := by cases level <;> decide

theorem Level.not_goingOn (h : operation ∈ level.operations) : operation ∉ level.operand.goingOn := by
  have hall : ∀ operation ∈ level.operations, operation ∉ level.operand.goingOn := by cases level <;> decide
  exact hall operation h

/-- The parser of a level. -/
def run (array : List Token) : Level → Nat → Nat → Option (Tree × Nat)
  | .bracketExp, fuel => getBracketExp array fuel
  | .power, fuel => getPower array (getBracketExp array fuel) fuel
  | .mlt, fuel => getMlt array (getBracketExp array fuel) fuel
  | .expression, fuel => getExpression array (getBracketExp array fuel) fuel

theorem run_level (hlevel : level ≠ .bracketExp) (fuel : Nat) :
    run array level fuel = getLevel array level.operations (run array level.operand fuel) fuel := by
  cases level with
  | bracketExp => exact absurd rfl hlevel
  | _ => rfl

/-- With enough fuel the parser of the level goes from `p` to `q` and gives the tree. -/
def ParsesTo (array : List Token) (level : Level) (p : Nat) (tree : Tree) (q : Nat) : Prop :=
  ∃ bound, ∀ fuel ≥ bound, run array level fuel p = some (tree, q)

/-- With enough fuel the loop of the level gets to `q` with the tree. -/
def LoopReaches (array : List Token) (level : Level) (p : Nat) (tree : Tree) (q : Nat) : Prop :=
  ∃ bound n, ∀ fuel ≥ bound, ∀ k, getLevel array level.operations (run array level.operand fuel) (k + n) p =
    operationLoop array level.operations (run array level.operand fuel) k tree q

namespace LoopReaches

theorem start (h : ParsesTo array level.operand p tree q) : LoopReaches array level p tree q := by
  obtain ⟨bound, h⟩ := h
  refine ⟨bound, 0, fun fuel hfuel k => ?_⟩
  rw [getLevel, h fuel hfuel]
  rfl

theorem step (hleft : LoopReaches array level p left q) (hop : operation ∈ level.operations)
    (hq : array[q]? = some (createToken operation)) (hright : ParsesTo array level.operand (q + 1) right r) :
    LoopReaches array level p (op operation left right) r := by
  obtain ⟨bound, n, hleft⟩ := hleft
  obtain ⟨bound', hright⟩ := hright
  refine ⟨max bound bound', n + 1, fun fuel hfuel k => ?_⟩
  rw [Nat.add_comm n, ← Nat.add_assoc, hleft fuel (by omega)]
  simp only [operationLoop, hq, Option.bind_eq_bind, Option.bind_some, op_val_createToken, if_pos hop, hright fuel (by omega)]

theorem stop (hlevel : level ≠ .bracketExp) (h : LoopReaches array level p tree q) (hq : array[q]? = some next)
    (hnext : next.IsNone level.operations) : ParsesTo array level p tree q := by
  obtain ⟨bound, n, h⟩ := h
  refine ⟨bound + n + 1, fun fuel hfuel => ?_⟩
  obtain ⟨k, hk⟩ : ∃ k, fuel = k + 1 + n := ⟨fuel - n - 1, by omega⟩
  rw [run_level hlevel]
  have hreach := h fuel (by omega) (k + 1)
  rw [← hk] at hreach
  rw [hreach, operationLoop, hq, Option.bind_eq_bind, Option.bind_some]
  cases hval : next.op_val with
  | none => rfl
  | some last_op =>
      have hnot : last_op ∉ level.operations := fun hmem => hnext last_op hmem hval
      exact if_neg hnot

end LoopReaches

/-- Wherever the tokens stand before one that does not go on with the level, they are taken for the tree. -/
def Understood (array : List Token) (level : Level) (tree : Tree) (tokens : List Token) : Prop :=
  ∀ p next, Stands array p tokens next →
    (next.IsNone level.operand.goingOn → level ≠ .bracketExp → LoopReaches array level p tree (p + tokens.length)) ∧
    (next.IsNone level.goingOn → ParsesTo array level p tree (p + tokens.length))

namespace ParsesTo

theorem cast (h : ParsesTo array level p tree q) (hq : q = r) : ParsesTo array level p tree r := hq ▸ h

/-- One unit of fuel for the call itself. -/
theorem of_succ (bound : Nat) (h : ∀ fuel ≥ bound, getBracketExp array (fuel + 1) p = some (tree, q)) :
    ParsesTo array .bracketExp p tree q := by
  refine ⟨bound + 1, fun fuel hfuel => ?_⟩
  obtain ⟨n, rfl⟩ : ∃ n, fuel = n + 1 := ⟨fuel - 1, by omega⟩
  exact h n (by omega)

theorem literal (hp : array[p]? = some token) (hop : token.op_val ≠ some .OPEN_BR) (htype : token.type ≠ .OP_T)
    (hread : getNumber array p = some (tree, p + 1)) : ParsesTo array .bracketExp p tree (p + 1) := by
  refine of_succ 0 fun fuel _ => ?_
  simp only [getBracketExp, hp, Option.bind_eq_bind, Option.bind_some, if_neg hop, if_neg htype, hread]

theorem brackets (hp : array[p]? = some (createToken .OPEN_BR)) (hexp : ParsesTo array .expression (p + 1) tree q)
    (hq : array[q]? = some (createToken .CLOSE_BR)) : ParsesTo array .bracketExp p tree (q + 1) := by
  obtain ⟨bound, hexp⟩ := hexp
  refine of_succ bound fun fuel hfuel => ?_
  have hsub := hexp fuel hfuel
  rw [run] at hsub
  simp only [getBracketExp, hp, Option.bind_eq_bind, Option.bind_some, op_val_createToken, if_true, hsub, hq]
  rfl

theorem function (hp : array[p]? = some (createToken operation)) (hop : operation ∈ [Operations.SIN, .COS, .LN])
    (hexp : ParsesTo array .expression (p + 2) tree q) (hq : array[q]? = some (createToken .CLOSE_BR)) :
    ParsesTo array .bracketExp p (op operation null tree) (q + 1) := by
  obtain ⟨bound, hexp⟩ := hexp
  have hopen : operation ≠ .OPEN_BR := by
    rintro rfl
    revert hop
    decide
  have hnode : getOperationNode tree (some operation) = op operation null tree := by
    simp only [List.mem_cons, List.not_mem_nil, or_false] at hop
    rcases hop with rfl | rfl | rfl <;> rfl
  refine of_succ bound fun fuel hfuel => ?_
  have hsub := hexp fuel hfuel
  rw [run] at hsub
  simp only [getBracketExp, hp, Option.bind_eq_bind, Option.bind_some, op_val_createToken, Option.some.injEq, if_neg hopen,
    type_createToken, if_true, hsub, hq, hnode]
  rfl

end ParsesTo

theorem LoopReaches.cast (h : LoopReaches array level p tree q) (hq : q = r) : LoopReaches array level p tree r := hq ▸ h

/-- At the end of a level its loop stops. -/
theorem Understood.of_loopReaches (hlevel : level ≠ .bracketExp)
    (h : ∀ p next, Stands array p tokens next → next.IsNone level.operand.goingOn →
      LoopReaches array level p tree (p + tokens.length)) :
    Understood array level tree tokens := by
  intro p next hstands
  refine ⟨fun hnext _ => h p next hstands hnext, fun hnext => ?_⟩
  have hreach := h p next hstands (hnext.mono level.goingOn_sub)
  exact hreach.stop hlevel hstands.last (hnext.mono level.operations_sub)

theorem Understood.of_parses
    (h : ∀ p next, Stands array p tokens next → ParsesTo array .bracketExp p tree (p + tokens.length)) :
    Understood array .bracketExp tree tokens :=
  fun p next hstands => ⟨fun _ hlevel => absurd rfl hlevel, fun _ => h p next hstands⟩

theorem Spells.understood (h : Spells level tree tokens) : Understood array level tree tokens := by
  induction h with
  | @number token htype hop =>
      refine .of_parses fun p next hstands => .literal hstands.head hop (by simp [htype]) ?_
      simp only [getNumber, hstands.head, Option.bind_eq_bind, Option.bind_some, htype]
      rfl
  | @«variable» token htype hop =>
      refine .of_parses fun p next hstands => .literal hstands.head hop (by simp [htype]) ?_
      simp only [getNumber, hstands.head, Option.bind_eq_bind, Option.bind_some, htype]
      rfl
  | brackets _ ih =>
      refine .of_parses fun p next hstands => ?_
      have hexp := (ih _ _ hstands.tail.first).2 (isNone_createToken (by decide))
      exact (ParsesTo.brackets hstands.head hexp hstands.tail.append.head).cast (by simp; omega)
  | function hop _ ih =>
      refine .of_parses fun p next hstands => ?_
      have hexp := (ih _ _ hstands.tail.tail.first).2 (isNone_createToken (by decide))
      exact (ParsesTo.function hstands.head hop hexp hstands.tail.tail.append.head).cast (by simp; omega)
  | lone hlevel _ ih => exact .of_loopReaches hlevel fun p next hstands hnext => .start ((ih p next hstands).2 hnext)
  | @operation level operation left right tokens tokens' hop _ _ ihleft ihright =>
      have hlevel : level ≠ .bracketExp := by
        rintro rfl
        cases hop
      refine .of_loopReaches hlevel fun p next hstands hnext => ?_
      -- the loop that has read the left operand is the one that goes on
      have hleft := (ihleft p _ hstands.first).1 (isNone_createToken (Level.not_goingOn hop)) hlevel
      have hright := (ihright _ _ hstands.append.tail).2 hnext
      exact (hleft.step hop hstands.append.head hright).cast (by simp; omega)

/-! ## The lexer -/

variable {env : Environment} {k : Nat} {input text rest : List Char}

theorem fillTokensArray_mono {fuel n : Nat} (h : fillTokensArray env fuel k input = some tokens) (hn : fuel ≤ n) :
    fillTokensArray env n k input = some tokens := by
  induction fuel generalizing n k input tokens with
  | zero => cases h
  | succ fuel ih =>
      obtain ⟨m, rfl⟩ : ∃ m, n = m + 1 := ⟨n - 1, by omega⟩
      rw [fillTokensArray] at h ⊢
      split_ifs at h ⊢ with hk hskip
      · exact h
      · obtain ⟨⟨token, rest⟩, hnext, hrest⟩ := Option.bind_eq_some_iff.1 h
        obtain ⟨tokens', htokens, hpure⟩ := Option.bind_eq_some_iff.1 hrest
        exact Option.bind_eq_some_iff.2 ⟨(token, rest), hnext,
          Option.bind_eq_some_iff.2 ⟨tokens', ih htokens (by omega), hpure⟩⟩

theorem Lexeme.nextToken (h : Lexeme env k token text rest) : nextToken env k (text ++ rest) = some (token, rest) := by
  cases h with
  | @symbol c operation _ hsymbol =>
      simp only [symbols, List.mem_cons, Prod.mk.injEq, List.not_mem_nil, or_false] at hsymbol
      rcases hsymbol with ⟨rfl, rfl⟩ | ⟨rfl, rfl⟩ | ⟨rfl, rfl⟩ | ⟨rfl, rfl⟩ | ⟨rfl, rfl⟩ | ⟨rfl, rfl⟩ | ⟨rfl, rfl⟩ <;> rfl
  | @function name operation rest hname =>
      simp only [functionNames, List.mem_cons, Prod.mk.injEq, List.not_mem_nil, or_false] at hname
      rcases hname with ⟨rfl, rfl⟩ | ⟨rfl, rfl⟩ | ⟨rfl, rfl⟩ | ⟨rfl, rfl⟩ | ⟨rfl, rfl⟩ | ⟨rfl, rfl⟩ | ⟨rfl, rfl⟩ <;> rfl
  | @number c text _ hdigit hnumber hends =>
      have halpha : ¬c.isAlpha = true := by simp [isDigit_not_alpha hdigit]
      have hread := hnumber.number_eq hends
      rw [List.cons_append] at hread ⊢
      rw [Derivative.nextToken, if_neg halpha, if_pos hdigit, hread]
  | @name c name _ halpha hstop hlength hends hcall =>
      have hread := except_eq (List.cons_ne_nil c name) hstop hends
      rw [List.cons_append] at hread hcall ⊢
      rw [Derivative.nextToken, if_pos halpha, if_neg hcall, hread]
      exact if_pos hlength

theorem Lexes.fillTokensArray (h : Lexes env k tokens input) (hroom : k + tokens.length ≤ MAX_TOKENS) :
    ∃ fuel, fillTokensArray env fuel k input = some tokens := by
  induction h with
  | @ending k input hend =>
      rw [List.length_singleton] at hroom
      refine ⟨1, ?_⟩
      rw [Derivative.fillTokensArray, if_pos (by omega), hend]
      rfl
  | @token k token tokens text rest input hinput htext hlexeme _ ih =>
      rw [List.length_cons] at hroom
      obtain ⟨fuel, hfuel⟩ := ih (by omega)
      have hne : skip input ≠ [] := by
        rw [hinput]
        exact List.append_ne_nil_of_left_ne_nil htext rest
      have hnext := hlexeme.nextToken
      rw [← hinput] at hnext
      refine ⟨fuel + 1, ?_⟩
      rw [Derivative.fillTokensArray, if_pos (by omega), hnext]
      simp only [Option.bind_eq_bind, Option.bind_some, if_neg hne, hfuel]
      rfl

/-! ## The input of the calculator -/

/-- Alone before the end, the tokens are read up to the end. -/
theorem Spells.parsesTo (h : Spells .expression tree tokens) :
    ParsesTo (tokens ++ [createToken .TERMINATION_SYM]) .expression 0 tree tokens.length := by
  have hstands := Stands.whole tokens (createToken .TERMINATION_SYM)
  exact ((h.understood 0 _ hstands).2 (isNone_createToken (by decide))).cast (Nat.zero_add _)

theorem Spells.parsed (h : Spells .expression tree tokens)
    (hlexes : Lexes env 0 (tokens ++ [createToken .TERMINATION_SYM]) input) (hroom : tokens.length < MAX_TOKENS) :
    ∃ bound, ∀ fuel ≥ bound, getGrammar env fuel input = some (tree, createToken .TERMINATION_SYM) := by
  obtain ⟨n, hlexed⟩ := hlexes.fillTokensArray (by rw [List.length_append, List.length_singleton]; omega)
  obtain ⟨bound, hparse⟩ := h.parsesTo
  refine ⟨max bound n, fun fuel hfuel => ?_⟩
  have htokens := fillTokensArray_mono hlexed (show n ≤ fuel by omega)
  have hroot := hparse fuel (by omega)
  rw [run] at hroot
  have hend := (Stands.whole tokens (createToken .TERMINATION_SYM)).last
  rw [Nat.zero_add] at hend
  simp only [getGrammar, Option.bind_eq_bind, htokens, Option.bind_some, hroot, hend]
  rfl

theorem ParsesTo.unique {tree' : Tree} (h : ParsesTo array level p tree q) (h' : ParsesTo array level p tree' r) :
    tree = tree' := by
  obtain ⟨bound, hparse⟩ := h
  obtain ⟨bound', hparse'⟩ := h'
  have heq := hparse (max bound bound') (le_max_left _ _)
  rw [hparse' (max bound bound') (le_max_right _ _)] at heq
  injection heq with heq
  injection heq with heq
  exact heq.symm

/-- No tokens stand for two trees. -/
theorem Spells.unique {tree' : Tree} (h : Spells .expression tree tokens) (h' : Spells .expression tree' tokens) :
    tree = tree' :=
  h.parsesTo.unique h'.parsesTo

/-- The doubles of three digits, and addresses one behind the other. -/
def threeDigits : Environment where
  strtod text :=
    if text = ['8'] then 0x4020000000000000#64 else if text = ['4'] then 0x4010000000000000#64 else 0x4000000000000000#64
  calloc k := BitVec.ofNat 64 (16 * k)
  aligned k := by
    rw [BitVec.toNat_ofNat]
    omega

def digitToken (c : Char) : Token := { type := .NUM_T, value := threeDigits.strtod [c], name := [] }

/-- The tokens of `8-4-2*sin(x)`. -/
def lineTokens : List Token :=
  [digitToken '8', createToken .SUB, digitToken '4', createToken .SUB, digitToken '2', createToken .MUL, createToken .SIN,
    createToken .OPEN_BR, { type := .VAR_T, value := threeDigits.calloc 8, name := ['x'] }, createToken .CLOSE_BR]

def lineTree : Tree :=
  op .SUB (op .SUB (GET_DIGIT 0x4020000000000000#64) (GET_DIGIT 0x4010000000000000#64))
    (op .MUL (GET_DIGIT 0x4000000000000000#64) (op .SIN null (var ['x'])))

theorem spells_line : Spells .expression lineTree lineTokens := by
  have hoperand : ∀ {tree tokens}, Spells .bracketExp tree tokens → Spells .mlt tree tokens :=
    fun h => .lone (by decide) (.lone (by decide) h)
  have h8 := @Spells.number (digitToken '8') rfl (by decide)
  have h4 := @Spells.number (digitToken '4') rfl (by decide)
  have h2 := @Spells.number (digitToken '2') rfl (by decide)
  have hx := @Spells.variable { type := .VAR_T, value := threeDigits.calloc 8, name := ['x'] } rfl (by decide)
  have hsin := Spells.function (by decide : Operations.SIN ∈ [Operations.SIN, .COS, .LN]) (.lone (by decide) (hoperand hx))
  have hproduct := @Spells.operation .mlt .MUL _ _ _ _ (by decide) (hoperand h2) (.lone (by decide) hsin)
  have hdifference := @Spells.operation .expression .SUB _ _ _ _ (by decide) (.lone (by decide) (hoperand h8)) (hoperand h4)
  exact @Spells.operation .expression .SUB _ _ _ _ (by decide) hdifference hproduct

theorem Lexeme.digit {c d : Char} {k : Nat} {rest : List Char} (hc : c.isDigit = true)
    (hd : d ∈ ['+', '-', '*', '/', '^', ')']) :
    Lexeme threeDigits k (digitToken c) [c] (d :: rest) := by
  refine .number hc (isNumber_of_digits (by simpa using hc)) fun c' t heq => ?_
  injection heq with heq
  exact heq ▸ ends_operation hd

theorem Lexes.digit {c d : Char} {k : Nat} {rest : List Char} (hc : c.isDigit = true) (hspace : isspace c = false)
    (hd : d ∈ ['+', '-', '*', '/', '^', ')']) (h : Lexes threeDigits (k + 1) tokens (d :: rest)) :
    Lexes threeDigits k (digitToken c :: tokens) (c :: d :: rest) :=
  .token (skip_of_not_space hspace _) (List.cons_ne_nil c []) (.digit hc hd) h

theorem Lexes.symbol {c : Char} {k : Nat} {rest : List Char} (hsymbol : (c, operation) ∈ symbols) (hspace : isspace c = false)
    (h : Lexes env (k + 1) tokens rest) : Lexes env k (createToken operation :: tokens) (c :: rest) :=
  .token (skip_of_not_space hspace _) (List.cons_ne_nil c []) (.symbol hsymbol) h

theorem lexes_line : Lexes threeDigits 0 (lineTokens ++ [createToken .TERMINATION_SYM])
    ['8', '-', '4', '-', '2', '*', 's', 'i', 'n', '(', 'x', ')'] := by
  have hend : Lexes threeDigits 9 [createToken .CLOSE_BR, createToken .TERMINATION_SYM] [')'] :=
    .symbol (by decide) rfl (.ending rfl)
  have hx : Lexeme threeDigits 8 { type := .VAR_T, value := threeDigits.calloc 8, name := ['x'] } ['x'] [')'] := by
    refine .name rfl (by simp [nameStop]) (by decide) (fun c' t heq => ?_) (by decide)
    injection heq with heq
    subst heq
    decide
  have hcall : Lexeme threeDigits 6 (createToken .SIN) ['s', 'i', 'n'] ['(', 'x', ')'] := .function (by decide)
  have hname : Lexes threeDigits 8 (lineTokens.drop 8 ++ [createToken .TERMINATION_SYM]) ['x', ')'] := .token rfl (by simp) hx hend
  have hopen : Lexes threeDigits 7 (lineTokens.drop 7 ++ [createToken .TERMINATION_SYM]) ['(', 'x', ')'] :=
    .symbol (by decide) rfl hname
  have hsin : Lexes threeDigits 6 (lineTokens.drop 6 ++ [createToken .TERMINATION_SYM]) ['s', 'i', 'n', '(', 'x', ')'] :=
    .token rfl (by simp) hcall hopen
  have hproduct : Lexes threeDigits 4 (lineTokens.drop 4 ++ [createToken .TERMINATION_SYM])
      ['2', '*', 's', 'i', 'n', '(', 'x', ')'] :=
    .digit rfl rfl (by simp) (.symbol (by decide) rfl hsin)
  have hsub : Lexes threeDigits 2 (lineTokens.drop 2 ++ [createToken .TERMINATION_SYM])
      ['4', '-', '2', '*', 's', 'i', 'n', '(', 'x', ')'] := .digit rfl rfl (by simp) (.symbol (by decide) rfl hproduct)
  exact .digit rfl rfl (by simp) (.symbol (by decide) rfl hsub)

end CompilerLab.Derivative
