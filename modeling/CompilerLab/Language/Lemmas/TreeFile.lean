import CompilerLab.Language.TreeFile

/-!
# Trees read back from their file

The tokens of the file of a tree, and the tree that is made of them.
-/

namespace CompilerLab.Language

open Options TreeNode Lib.Scanf Asm

variable {lg : BitVec 64 → Str} {strtod : Str → BitVec 64} {input rest : Str} {tokens tokens' : List FileToken} {op : Options}

/-! ## The loop of the tokens -/

/-- In some number of rounds these tokens are found. -/
def Lexed (strtod : Str → BitVec 64) (input : Str) (tokens : List FileToken) : Prop := ∃ fuel, fillTokens strtod fuel input = some tokens

theorem length_dropWhile_le (p : Char → Bool) (s : Str) : (s.dropWhile p).length ≤ s.length :=
  (List.dropWhile_suffix p).length_le

theorem except_length {stop s text rest : Str} (h : except stop s = .item text rest) :
    rest.length + text.length = s.length ∧ text ≠ [] := by
  unfold except at h
  split_ifs at h with hnil htext
  cases h
  refine ⟨?_, htext⟩
  have hsplit := congrArg List.length (@List.takeWhile_append_dropWhile _ (fun c => !stop.contains c) s)
  rw [List.length_append] at hsplit
  omega

theorem longest_length {q : NumState} {s : Str} : (q.longest s).2.1.length + (q.longest s).2.2.length = s.length := by
  induction s generalizing q with
  | nil => rfl
  | cons c s ih =>
      rw [NumState.longest]
      cases q.next c with
      | none => simp
      | some q' =>
          have hlength := @ih q'
          simp only [List.length_cons]
          omega

theorem longest_nil {q q' : NumState} {s rest : Str} (h : q.longest s = (q', [], rest)) : q' = q := by
  cases s with
  | nil =>
      cases h
      rfl
  | cons c s =>
      rw [NumState.longest] at h
      cases hnext : q.next c with
      | none =>
          rw [hnext] at h
          cases h
          rfl
      | some q'' =>
          rw [hnext] at h
          cases h

theorem number_length {s text rest : Str} (h : number s = .item text rest) : rest.length + text.length ≤ s.length ∧ text ≠ [] := by
  unfold number at h
  split_ifs at h
  cases hlongest : NumState.longest .start (skip s) with
  | mk q p =>
      obtain ⟨text', rest'⟩ := p
      rw [hlongest] at h
      dsimp only at h
      split_ifs at h with haccepting
      cases h
      have hlength := @longest_length .start (skip s)
      rw [hlongest] at hlength
      dsimp only at hlength
      refine ⟨?_, ?_⟩
      · have hskip := length_dropWhile_le isspace s
        rw [skip] at hlength
        omega
      · rintro rfl
        rw [longest_nil hlongest] at haccepting
        cases haccepting

theorem nextToken_length {c : Char} {token : Option FileToken} (h : nextToken strtod c input = some (token, rest)) :
    rest.length ≤ input.length := by
  unfold nextToken at h
  split_ifs at h with halpha hquote hdigit hbrace
  · cases hexcept : except ['{', '}', ' '] (c :: input) with
    | item text rest' =>
        rw [hexcept] at h
        dsimp only at h
        split_ifs at h
        cases h
        obtain ⟨hlength, hne⟩ := except_length hexcept
        have hpos := List.length_pos_iff.2 hne
        rw [List.length_cons] at hlength
        omega
    | _ => rw [hexcept] at h; cases h
  · have htail : ∀ s : Str, (if s.head? = some '"' then s.tail else s).length ≤ s.length := by
      intro s
      split
      · rw [List.length_tail]
        exact Nat.sub_le _ _
      · exact le_refl _
    cases hexcept : except ['"', ' '] input with
    | item text rest' =>
        rw [hexcept] at h
        dsimp only at h
        rw [Option.ite_none_right_eq_some] at h
        cases h.2
        have hrest := (except_length hexcept).1
        have hshorter : rest'.length ≤ input.length := by omega
        exact (htail rest').trans hshorter
    | _ =>
        rw [hexcept] at h
        dsimp only at h
        rw [Option.ite_none_right_eq_some] at h
        cases h.2
        exact htail input
  · cases hnumber : number (c :: input) with
    | item text rest' =>
        rw [hnumber] at h
        cases h
        obtain ⟨hlength, hne⟩ := number_length hnumber
        have hpos := List.length_pos_iff.2 hne
        rw [List.length_cons] at hlength
        omega
    | _ => rw [hnumber] at h; cases h
  · cases h
    exact le_refl _

/-- One round for each character is enough. -/
theorem fillTokens_of_length {fuel n : Nat} (h : fillTokens strtod fuel input = some tokens) (hn : input.length < n) :
    fillTokens strtod n input = some tokens := by
  induction fuel generalizing input n tokens with
  | zero => cases h
  | succ fuel ih =>
      cases n with
      | zero => omega
      | succ n =>
          have hlength := length_dropWhile_le isBlank input
          rw [fillTokens] at h ⊢
          cases hinput : input.dropWhile isBlank with
          | nil =>
              rw [hinput] at h
              exact h
          | cons c input' =>
              rw [hinput] at h hlength
              obtain ⟨⟨token, rest⟩, hnext, hrest⟩ := Option.bind_eq_some_iff.1 h
              obtain ⟨tokens', htokens, hpure⟩ := Option.bind_eq_some_iff.1 hrest
              have hshorter := nextToken_length hnext
              rw [List.length_cons] at hlength
              refine Option.bind_eq_some_iff.2 ⟨_, hnext, Option.bind_eq_some_iff.2 ⟨tokens', ih htokens ?_, hpure⟩⟩
              omega

/-! ## Single tokens -/

theorem isDigit_not_blank {c : Char} (h : c.isDigit = true) : isBlank c = false := by
  have hall : (['0', '1', '2', '3', '4', '5', '6', '7', '8', '9'].all fun c => !isBlank c) = true := rfl
  simpa using List.all_eq_true.1 hall c (digit_cases h)

namespace Lexed

theorem nil : Lexed strtod [] [.operation .TERMINATION_SYM] := ⟨1, rfl⟩

theorem blank {c : Char} (hc : isBlank c = true) (h : Lexed strtod input tokens) : Lexed strtod (c :: input) tokens := by
  obtain ⟨fuel, h⟩ := h
  cases fuel with
  | zero => cases h
  | succ fuel => exact ⟨fuel + 1, by rwa [fillTokens, List.dropWhile_cons_of_pos hc]⟩

theorem next {c : Char} {token : Option FileToken} (hc : isBlank c = false) (hnext : nextToken strtod c input = some (token, rest))
    (h : Lexed strtod rest tokens) : Lexed strtod (c :: input) (token.toList ++ tokens) := by
  obtain ⟨fuel, h⟩ := h
  refine ⟨fuel + 1, ?_⟩
  rw [fillTokens, List.dropWhile_cons_of_neg (by simp [hc])]
  simp only [Option.bind_eq_bind, hnext, Option.bind_some, h]
  rfl

theorem brace {c : Char} (hc : c = '{' ∨ c = '}') (h : Lexed strtod input tokens) : Lexed strtod (c :: input) tokens := by
  rcases hc with rfl | rfl
  · have hnext : nextToken strtod '{' input = some (none, input) := rfl
    exact next rfl hnext h
  · have hnext : nextToken strtod '}' input = some (none, input) := rfl
    exact next rfl hnext h

/-- The letters of an operation end before a blank or a brace. -/
theorem operation (hop : op ∈ operationNames) {c : Char} (hc : c ∈ ['{', '}', ' ']) (h : Lexed strtod (c :: rest) tokens) :
    Lexed strtod ((enumerator op).toList ++ c :: rest) (.operation op :: tokens) := by
  have hspec : ∀ op ∈ operationNames, (enumerator op).toList.head?.map (fun c => c.isAlpha && !isBlank c) = some true ∧
      ((enumerator op).toList.all fun c => !(['{', '}', ' '].contains c)) = true ∧ (enumerator op).toList.length < MAX_NAME_LEN ∧
        getOpType (enumerator op).toList = op := by decide +kernel
  obtain ⟨hhead, hstop, hlength, htype⟩ := hspec op hop
  have hne : (enumerator op).toList ≠ [] := fun hnil => by rw [hnil] at hhead; cases hhead
  obtain ⟨c', t, ht⟩ := List.exists_cons_of_ne_nil hne
  obtain ⟨halpha, hblank⟩ : c'.isAlpha = true ∧ isBlank c' = false := by simpa [ht] using hhead
  have hexcept : except ['{', '}', ' '] ((enumerator op).toList ++ c :: rest) = .item (enumerator op).toList (c :: rest) := by
    refine except_eq hne (fun a ha hmem => ?_) fun a s hs => ?_
    · have hnot := List.all_eq_true.1 hstop a ha
      rw [List.contains_iff_mem.2 hmem] at hnot
      cases hnot
    · injection hs with hs
      rwa [← hs]
  have hnext : nextToken strtod c' (t ++ c :: rest) = some (some (.operation op), c :: rest) := by
    rw [ht, List.cons_append] at hexcept
    rw [nextToken, if_pos halpha, hexcept]
    dsimp only
    rw [← ht, if_pos hlength, htype]
  rw [ht, List.cons_append]
  exact next hblank hnext h

theorem name {var_name : String} (hfits : NameFits var_name) (h : Lexed strtod rest tokens) :
    Lexed strtod (quoted var_name ++ rest) (.name var_name.toList :: tokens) := by
  have hnext : nextToken strtod '"' (var_name.toList ++ '"' :: rest) = some (some (.name var_name.toList), rest) := by
    have halpha : Char.isAlpha '"' = false := rfl
    rw [nextToken, halpha, if_neg Bool.false_ne_true, if_pos rfl]
    by_cases hne : var_name.toList = []
    · rw [hne, List.nil_append, except_mismatch List.mem_cons_self]
      rfl
    · have hstop : ∀ c ∈ var_name.toList, c ∉ ['"', ' '] := fun c hc hmem => by
        obtain ⟨hquote, hspace⟩ := hfits.not_stop c hc
        simp [hquote, hspace] at hmem
      rw [except_eq hne hstop fun c s hs => by injection hs with hs; rw [← hs]; exact List.mem_cons_self]
      dsimp only
      rw [if_pos hfits.length]
      rfl
  have hquoted : quoted var_name ++ rest = '"' :: (var_name.toList ++ '"' :: rest) := by simp [quoted]
  rw [hquoted]
  exact next rfl hnext h

theorem number {bits : BitVec 64} (hfits : NumberFits lg strtod bits) (h : Lexed strtod (' ' :: rest) tokens) :
    Lexed strtod (lg bits ++ ' ' :: rest) (.number bits :: tokens) := by
  obtain ⟨c, t, ht⟩ := List.exists_cons_of_ne_nil hfits.isNumber.ne_nil
  obtain ⟨c', hc', hbegins⟩ := hfits.begins
  obtain rfl : c = c' := by
    rw [ht] at hc'
    exact Option.some.inj hc'
  have hkind : c.isAlpha = false ∧ c ≠ '"' ∧ isBlank c = false := by
    rcases hbegins with hdigit | rfl
    · have hquote : c ≠ '"' := by
        rintro rfl
        cases hdigit
      exact ⟨isDigit_not_alpha hdigit, hquote, isDigit_not_blank hdigit⟩
    · decide
  have hnumber : Lib.Scanf.number (lg bits ++ ' ' :: rest) = .item (lg bits) (' ' :: rest) :=
    hfits.isNumber.number_eq fun a s hs => by injection hs with hs; exact hs ▸ ends_space
  have hnext : nextToken strtod c (t ++ ' ' :: rest) = some (some (.number bits), ' ' :: rest) := by
    have hexact := hfits.exact
    rw [ht] at hnumber hexact
    rw [nextToken, hkind.1, if_neg Bool.false_ne_true, if_neg hkind.2.1, if_pos hbegins, ← List.cons_append, hnumber]
    dsimp only
    rw [hexact]
  rw [ht, List.cons_append]
  exact next hkind.2.2 hnext h

/-- What is printed for the operation and for a child that is not there. -/
theorem operation_printed (hop : op ∈ operationNames) (h : Lexed strtod rest tokens) :
    Lexed strtod (' ' :: (enumerator op).toList ++ ' ' :: rest) (.operation op :: tokens) :=
  blank rfl (operation hop (by simp) (blank rfl h))

theorem opened (h : Lexed strtod rest tokens) : Lexed strtod (" \x7b ".toList ++ rest) tokens := by
  have htext : " \x7b ".toList ++ rest = ' ' :: '{' :: ' ' :: rest := rfl
  rw [htext]
  exact blank rfl (brace (.inl rfl) (blank rfl h))

theorem closed (h : Lexed strtod rest tokens) : Lexed strtod (" \x7d ".toList ++ rest) tokens := by
  have htext : " \x7d ".toList ++ rest = ' ' :: '}' :: ' ' :: rest := rfl
  rw [htext]
  exact blank rfl (brace (.inr rfl) (blank rfl h))

/-- An operation in braces. -/
theorem braced (hop : op ∈ operationNames) (h : Lexed strtod rest tokens) :
    Lexed strtod ('{' :: ' ' :: (enumerator op).toList ++ ' ' :: '}' :: rest) (.operation op :: tokens) :=
  brace (.inl rfl) (operation_printed hop (brace (.inr rfl) h))

theorem absent (h : Lexed strtod rest tokens) : Lexed strtod (" \x7b NIL \x7d ".toList ++ rest) (.operation NIL :: tokens) := by
  have hname : operationNames.contains NIL = true := rfl
  exact blank rfl (braced (List.contains_iff_mem.1 hname) (blank (c := ' ') rfl h))

/-- What is printed behind the name of a function that is called. -/
theorem called (h : Lexed strtod rest tokens) :
    Lexed strtod (" \x7b NIL \x7d \x7b NIL \x7d ".toList ++ rest) (.operation NIL :: .operation NIL :: tokens) := by
  have hname : operationNames.contains NIL = true := rfl
  have hmem := List.contains_iff_mem.1 hname
  exact blank rfl (braced hmem (blank (c := ' ') rfl (braced hmem (blank (c := ' ') rfl h))))

/-- What is printed behind the name of a function without parameters. -/
theorem parameterless (h : Lexed strtod rest tokens) :
    Lexed strtod (" \x7b NIL \x7d \x7b VOID \x7d ".toList ++ rest) (.operation NIL :: .operation VOID :: tokens) := by
  have hname : operationNames.contains NIL = true := rfl
  have hvoid : operationNames.contains VOID = true := rfl
  exact blank rfl (braced (List.contains_iff_mem.1 hname)
    (blank (c := ' ') rfl (braced (List.contains_iff_mem.1 hvoid) (blank (c := ' ') rfl h))))

theorem typed (h : Lexed strtod rest tokens) : Lexed strtod ("\x7b TYPE \x7d".toList ++ rest) (.operation TYPE :: tokens) := by
  have hname : operationNames.contains TYPE = true := rfl
  exact braced (List.contains_iff_mem.1 hname) h

end Lexed

/-! ## The tokens of a tree -/

theorem plainOperators_named (hop : op ∈ plainOperators) : op ∈ operationNames ∧ getOpSign op = enumerator op := by
  have hall : ∀ op ∈ plainOperators, op ∈ operationNames ∧ getOpSign op = enumerator op := by decide
  exact hall op hop

theorem plainOperators_plain (hop : op ∈ plainOperators) :
    (op ≠ TERMINATION_SYM ∧ op ≠ NIL ∧ op ≠ VOID ∧ op ≠ TYPE) ∧ op ≠ FUNC ∧ op ≠ CALL := by
  have hall : ∀ op ∈ plainOperators, (op ≠ TERMINATION_SYM ∧ op ≠ NIL ∧ op ≠ VOID ∧ op ≠ TYPE) ∧ op ≠ FUNC ∧ op ≠ CALL := by
    decide
  exact hall op hop

theorem fileTokens_null : null.fileTokens = [.operation NIL] := rfl

theorem fileTokens_number (bits : BitVec 64) : (DIGIT_NODE bits).fileTokens = [.number bits] := rfl

theorem fileTokens_variable (name : String) : (VAR_NODE name).fileTokens = [.name name.toList] := rfl

theorem fileTokens_declared (name : String) (params right : TreeNode) : (node .NAME_T (.var_name name) params right).fileTokens =
    .name name.toList :: (params.fileTokens ++ [.operation (if params = null then VOID else TYPE)]) := rfl

theorem fileTokens_called (name : String) (left right : TreeNode) :
    (node .NAME_SHORT_T (.var_name name) left right).fileTokens = [.name name.toList, .operation NIL, .operation NIL] := rfl

theorem fileTokens_operation {left right : TreeNode} :
    (OP_NODE op left right).fileTokens = .operation op :: (left.fileTokens ++ right.fileTokens) := rfl

/-- The text of a child, which may be missing. -/
def printChild (lg : BitVec 64 → Str) (tree : TreeNode) : Option Str :=
  if tree = null then some " \x7b NIL \x7d ".toList else recPrintNode lg tree

/-- The text has the tokens of the tree. -/
def Printed (lg : BitVec 64 → Str) (strtod : Str → BitVec 64) (tree : TreeNode) : Prop :=
  ∃ text, printChild lg tree = some text ∧
    ∀ rest tokens, Lexed strtod rest tokens → Lexed strtod (text ++ rest) (tree.fileTokens ++ tokens)

theorem recPrintNode_operation {left right : TreeNode} {leftText rightText : Str} (hleft : printChild lg left = some leftText)
    (hright : printChild lg right = some rightText) :
    printChild lg (OP_NODE op left right) =
      some (" \x7b ".toList ++ (' ' :: (getOpSign op).toList ++ [' '] ++ leftText ++ rightText) ++ " \x7d ".toList) := by
  rw [printChild] at hleft hright
  simp only [OP_NODE, printChild, reduceCtorEq, if_false, recPrintNode, hleft, hright]
  rfl

theorem IsLiteral.name {name : Values} {type : Types} {left right : TreeNode} (h : name.IsLiteral) (htype : type = .NAME_T ∨ type = .NAME_SHORT_T)
    (hfits : (node type name left right).Fits lg strtod) : ∃ var_name, name = .var_name var_name := by
  rcases htype with rfl | rfl <;> cases name <;> first | exact ⟨_, rfl⟩ | cases hfits

theorem Simple.filed {tree : TreeNode} (h : Simple tree) (hfits : tree.Fits lg strtod) : Filed tree := by
  induction h with
  | null => exact .null
  | number bits => exact .number bits
  | «variable» name => exact .variable name
  | operation hop _ _ ihleft ihright => exact .operation (List.mem_append_left _ hop) (ihleft hfits.1) (ihright hfits.2)
  | call hname _ ih =>
      obtain ⟨var_name, rfl⟩ := IsLiteral.name hname (.inr rfl) hfits.1
      exact .call (ih hfits.2)

theorem Block.filed {tree : TreeNode} (h : Block tree) (hfits : tree.Fits lg strtod) : Filed tree := by
  induction h with
  | simple h => exact h.filed hfits
  | statement _ _ ihleft ihright => exact .operation (by decide) (ihleft hfits.1) (ihright hfits.2)
  | declaration hname hparams _ ih =>
      obtain ⟨var_name, rfl⟩ := IsLiteral.name hname (.inl rfl) hfits.1
      exact .declaration (hparams.filed hfits.1.2.1) (ih hfits.2)
  | conditional hcondition _ _ ihif ihelse =>
      exact .operation (by decide) (hcondition.filed hfits.1) (.operation (by decide) (ihif hfits.2.1) (ihelse hfits.2.2))
  | loop hcondition _ ih => exact .operation (by decide) (hcondition.filed hfits.1) (ih hfits.2)
  | ret hparams => exact .operation (by decide) (hparams.filed hfits.1) .null

/-- The text of the name of a declared function. -/
theorem name_printed {name : String} {params : TreeNode} (hfits : NameFits name) (hparams : Printed lg strtod params) :
    Printed lg strtod (node .NAME_T (.var_name name) params .null) := by
  obtain ⟨paramsText, hparamsText, hparamsTokens⟩ := hparams
  by_cases hnull : params = null
  · subst hnull
    refine ⟨_, rfl, fun rest tokens h => ?_⟩
    have hname := Lexed.opened (Lexed.name hfits (Lexed.parameterless (Lexed.closed h)))
    simpa [fileTokens_declared, fileTokens_null] using hname
  · rw [printChild, if_neg hnull] at hparamsText
    refine ⟨" \x7b ".toList ++ (quoted name ++ paramsText ++ "\x7b TYPE \x7d".toList) ++ " \x7d ".toList, ?_, fun rest tokens h => ?_⟩
    · simp only [printChild, reduceCtorEq, if_false, recPrintNode, hnull, hparamsText]
      rfl
    · have hname := Lexed.opened (Lexed.name hfits (hparamsTokens _ _ (Lexed.typed (Lexed.closed h))))
      simpa [fileTokens_declared, hnull] using hname

/-- The text of the name of a called function. -/
theorem short_printed {name : String} (hfits : NameFits name) : Printed lg strtod (node .NAME_SHORT_T (.var_name name) .null .null) := by
  refine ⟨_, rfl, fun rest tokens h => ?_⟩
  have hname := Lexed.opened (Lexed.name hfits (Lexed.called (Lexed.closed h)))
  simpa [fileTokens_called] using hname

theorem operation_printed {left right : TreeNode} (hname : op ∈ operationNames) (hsign : getOpSign op = enumerator op)
    (hleft : Printed lg strtod left) (hright : Printed lg strtod right) : Printed lg strtod (OP_NODE op left right) := by
  obtain ⟨leftText, hleftText, hleftTokens⟩ := hleft
  obtain ⟨rightText, hrightText, hrightTokens⟩ := hright
  refine ⟨_, recPrintNode_operation hleftText hrightText, fun rest tokens h => ?_⟩
  have hchildren := hleftTokens _ _ (hrightTokens _ _ (Lexed.closed h))
  have hprinted := Lexed.opened (Lexed.operation_printed hname hchildren)
  simpa [fileTokens_operation, hsign] using hprinted

theorem Filed.printed {tree : TreeNode} (h : Filed tree) (hfits : tree.Fits lg strtod) : Printed lg strtod tree := by
  induction h with
  | null => exact ⟨_, rfl, fun _ _ => Lexed.absent⟩
  | number bits =>
      refine ⟨_, rfl, fun rest tokens h => ?_⟩
      have hclosed : Lexed strtod (' ' :: '}' :: ' ' :: rest) tokens := Lexed.closed h
      have hnumber := Lexed.number hfits.1 hclosed
      simpa [fileTokens_number] using Lexed.opened hnumber
  | «variable» name =>
      refine ⟨_, rfl, fun rest tokens h => ?_⟩
      have hname := Lexed.name hfits.1 (Lexed.closed h)
      simpa [fileTokens_variable] using Lexed.opened hname
  | operation hop _ _ ihleft ihright =>
      obtain ⟨hname, hsign⟩ := plainOperators_named hop
      exact operation_printed hname hsign (ihleft hfits.1) (ihright hfits.2)
  | call _ ih =>
      have hname : operationNames.contains CALL = true := rfl
      exact operation_printed (List.contains_iff_mem.1 hname) rfl (short_printed hfits.1.1) (ih hfits.2)
  | declaration _ _ ihparams ihbody =>
      have hname : operationNames.contains FUNC = true := rfl
      exact operation_printed (List.contains_iff_mem.1 hname) rfl (name_printed hfits.1.1 (ihparams hfits.1.2.1)) (ihbody hfits.2)

/-! ## The tree of the tokens -/

theorem recGetChild_operation {fuel : Nat} {rest rest' : List FileToken} {l r : TreeNode}
    (hop : op ≠ TERMINATION_SYM ∧ op ≠ NIL ∧ op ≠ VOID ∧ op ≠ TYPE)
    (hleft : recGetChild fuel tokens (op = FUNC ∨ op = CALL) = some (l, rest)) (hright : recGetChild fuel rest false = some (r, rest')) :
    recGetChild (fuel + 1) (.operation op :: tokens) false = some (OP_NODE op l r, rest') := by
  obtain ⟨hend, hnil, hvoid, htype⟩ := hop
  rw [recGetChild]
  · simp only [Option.bind_eq_bind, hleft, Option.bind_some, hright]
    rfl
  all_goals simp [*]

/-- The tokens of the name of a declared function, the type of which is not kept. -/
theorem recGetChild_name {fuel : Nat} {rest rest' : List FileToken} {params type_node : TreeNode} (name : String)
    (hparams : recGetChild fuel tokens false = some (params, rest)) (htype : recGetChild fuel rest false = some (type_node, rest')) :
    recGetChild (fuel + 1) (.name name.toList :: tokens) true = some (node .NAME_T (.var_name name) params type_node, rest') := by
  have hread : recGetChild (fuel + 1) (.name name.toList :: tokens) true = (recGetChild fuel tokens false).bind fun read =>
      (recGetChild fuel read.2 false).bind fun read' => some (node .NAME_T (.var_name (String.ofList name.toList)) read.1 read'.1, read'.2) := rfl
  rw [hread, hparams, Option.bind_some, htype, Option.bind_some, String.ofList_toList]

theorem recGetChild_type {fuel : Nat} {rest : List FileToken} {params : TreeNode} :
    recGetChild (fuel + 1) (.operation (if params = null then VOID else TYPE) :: rest) false = some (null, rest) := by
  split <;> rfl

theorem asRead_operation {left right : TreeNode} (hop : op ≠ CALL) : (OP_NODE op left right).asRead = OP_NODE op left.asRead right.asRead := by
  rw [OP_NODE, asRead]
  · rfl
  all_goals simp [hop]

theorem asRead_declared (name : Values) (params : TreeNode) :
    (node .NAME_T name params null).asRead = node .NAME_T name params.asRead null := rfl

theorem length_le_fuel {fuel : Nat} {tree : TreeNode} {token : FileToken} {list : List FileToken}
    (h : tree.fileTokens = token :: list) (hfuel : tree.fileTokens.length ≤ fuel) : ∃ n, fuel = n + 1 ∧ list.length ≤ n := by
  rw [h, List.length_cons] at hfuel
  exact ⟨fuel - 1, by omega, by omega⟩

theorem Filed.read {tree : TreeNode} (h : Filed tree) {fuel : Nat} {rest : List FileToken} (hfuel : tree.fileTokens.length ≤ fuel) :
    recGetChild fuel (tree.fileTokens ++ rest) false = some (tree.asRead, rest) := by
  induction h generalizing fuel rest with
  | null =>
      obtain ⟨n, rfl, -⟩ := length_le_fuel rfl hfuel
      rfl
  | number bits =>
      obtain ⟨n, rfl, -⟩ := length_le_fuel rfl hfuel
      rfl
  | «variable» name =>
      obtain ⟨n, rfl, -⟩ := length_le_fuel rfl hfuel
      have hread : recGetChild (n + 1) ((VAR_NODE name).fileTokens ++ rest) false = some (VAR_NODE (String.ofList name.toList), rest) := rfl
      rw [hread, String.ofList_toList]
      rfl
  | @operation op left right hop _ _ ihleft ihright =>
      obtain ⟨n, rfl, hn⟩ := length_le_fuel fileTokens_operation hfuel
      obtain ⟨hplain, hfunc, hcall⟩ := plainOperators_plain hop
      rw [List.length_append] at hn
      have hleft := @ihleft n (right.fileTokens ++ rest) (by omega)
      have hright := @ihright n rest (by omega)
      rw [fileTokens_operation, asRead_operation hcall, List.cons_append, List.append_assoc]
      refine recGetChild_operation hplain ?_ hright
      simpa [hfunc, hcall] using hleft
  | @call name params _ ih =>
      obtain ⟨n, rfl, hn⟩ := length_le_fuel fileTokens_operation hfuel
      have htokens : (node .NAME_SHORT_T (.var_name name) .null .null).fileTokens =
        [.name name.toList, .operation NIL, .operation NIL] := fileTokens_called name .null .null
      rw [htokens, List.length_append, List.length_cons, List.length_cons, List.length_cons, List.length_nil] at hn
      obtain ⟨k, rfl⟩ : ∃ k, n = k + 2 := ⟨n - 2, by omega⟩
      have hright := @ih (k + 2) rest (by omega)
      rw [fileTokens_operation, htokens, List.cons_append, List.append_assoc]
      exact recGetChild_operation (by simp) (recGetChild_name name rfl rfl) hright
  | @declaration name params body _ _ ihparams ihbody =>
      obtain ⟨n, rfl, hn⟩ := length_le_fuel fileTokens_operation hfuel
      have htokens : (node .NAME_T (.var_name name) params .null).fileTokens =
        .name name.toList :: (params.fileTokens ++ [.operation (if params = .null then VOID else TYPE)]) := fileTokens_declared name params .null
      rw [htokens, List.length_append, List.length_cons, List.length_append, List.length_cons, List.length_nil] at hn
      obtain ⟨k, rfl⟩ : ∃ k, n = k + 2 := ⟨n - 2, by omega⟩
      have hparams := @ihparams (k + 1) (.operation (if params = .null then VOID else TYPE) :: (body.fileTokens ++ rest)) (by omega)
      have hbody := @ihbody (k + 2) rest (by omega)
      rw [fileTokens_operation, htokens, List.cons_append, List.append_assoc]
      have hname := recGetChild_name name hparams recGetChild_type
      refine recGetChild_operation (by simp) ?_ hbody
      simpa [asRead_declared] using hname

end CompilerLab.Language
