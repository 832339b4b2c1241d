import CompilerLab.Asm.Lemmas.Lines

/-!
# A pass over a text

A line of assembly with what it is. A pass adds the sizes of the lines, and its table of labels is that of the declarations it has
met.
-/

namespace CompilerLab.Asm

open Lib.Scanf

/-- What a line is; the argument of a push or a pop is what follows the blank. -/
inductive Kind where
  | comment
  | label (name : Str)
  | arg (s : Str)
  | jump (label : Str)
  | plain
  deriving DecidableEq, Repr

/-- How many bytes a line writes. -/
def Kind.size : Kind → Nat
  | comment => 0
  | label _ => 0
  | arg _ => 10
  | jump _ => 10
  | plain => 1

/-- The lines of the assembly language. -/
inductive IsAssembly : Str → Kind → Prop
  | comment (s : Str) : IsAssembly (';' :: s) .comment
  | label {w rest : Str} (hw : word (w ++ rest) = .item w rest) (hhead : w.head? ≠ some ';')
      (hcolon : w.getLast? = some ':') : IsAssembly (w ++ rest) (.label w.dropLast)
  | arg {cmd : Commands} {c : Char} {s : Str} (hcmd : cmd.IsPushPop) (hc : isspace c = true) :
      IsAssembly (cmd.name ++ c :: s) (.arg s)
  | jump {cmd : Commands} {c : Char} {s label r : Str} (hcmd : cmd.IsJump) (hc : isspace c = true)
      (hlabel : word s = .item label r) : IsAssembly (cmd.name ++ c :: s) (.jump label)
  | plain {cmd : Commands} {rest : Str} (hp : ¬ cmd.IsPushPop) (hj : ¬ cmd.IsJump) (hrest : Separated rest) :
      IsAssembly (cmd.name ++ rest) .plain

structure AsmLine where
  text : Str
  kind : Kind
  isAssembly : IsAssembly text kind

namespace AsmLine

/-- What the assembler copies of a line fits into its arrays. -/
def Fits (l : AsmLine) : Prop :=
  match l.kind with
  | .label _ => l.text.length < MAX_CMD_LEN
  | .arg s => FitsArg s
  | .jump label => label.length < MAX_CMD_LEN
  | _ => True

/-- The table of labels after a line at a position. -/
def declare (labels : List Label) (pos : Int) (l : AsmLine) : List Label :=
  match l.kind with
  | .label name => if name ∈ labels.map Label.name then labels else labels ++ [⟨name, pos⟩]
  | _ => labels

def declared (l : AsmLine) : Option Str :=
  match l.kind with
  | .label name => some name
  | _ => none

end AsmLine

variable {d : Doubles} {a a' : Assembler} {l : AsmLine} {n : Int} {text : List AsmLine}

/-! ## One line -/

/-- What a line does to the assembler. -/
structure Assembled (d : Doubles) (l : AsmLine) (a a' : Assembler) : Prop where
  fits : l.Fits
  capacity : a'.capacity = a.capacity
  cur_len : a'.cur_len = a.cur_len
  labels : a'.labels = l.declare a.labels a.cur_len
  room : l.declare a.labels a.cur_len ≠ a.labels → a.labels.length < MAX_LABELS
  commands : ∀ k, k < a.cur_len ∨ a.cur_len + l.kind.size ≤ k → a'.commands k = a.commands k
  operand : ∀ label, l.kind = .jump label → peek a'.commands (a.cur_len + 1) = d.ofInt (foundPos a label)

theorem InsertLabel_eq {w rest : Str} (h : word (w ++ rest) = .item w rest) :
    InsertLabel a (w ++ rest) w.length = if (w ++ rest).length < MAX_CMD_LEN then
      if w.dropLast ∈ a.labels.map Label.name then some a
      else if a.labels.length < MAX_LABELS then some { a with labels := a.labels ++ [⟨w.dropLast, a.cur_len⟩] }
      else none
    else none := by
  obtain ⟨hne, -, -⟩ := word_item h
  have hpos := List.length_pos_iff.mpr hne
  have htake : (w ++ rest).take (w.length - 1) = w.dropLast := by
    rw [List.take_append_of_le_length (by omega), List.dropLast_eq_take]
  unfold InsertLabel
  rw [strcpy]
  split
  · simp only [Option.bind_eq_bind, Option.bind_some, htake]
    rfl
  · rfl

theorem LineToCommands_label {w rest : Str} (h : word (w ++ rest) = .item w rest) (hhead : w.head? ≠ some ';')
    (hcolon : w.getLast? = some ':') : LineToCommands d a (w ++ rest) =
      if w.length < MAX_CMD_LEN then (InsertLabel a (w ++ rest) w.length).map fun b => (b, 0) else none := by
  obtain ⟨hne, -, -⟩ := word_item h
  have hhead' : (w ++ rest).head? ≠ some ';' := by rwa [List.head?_append_of_ne_nil _ hne]
  rw [LineToCommands, if_neg hhead', IsLabel_eq h, if_pos hcolon]
  split
  · rw [Option.bind_eq_bind, Option.bind_some, if_pos (List.length_pos_iff.mpr hne).ne', Option.map_eq_bind]
    rfl
  · rfl

theorem AsmLine.assembled (h : LineToCommands d a l.text = some (a', n)) : n = l.kind.size ∧ Assembled d l a a' := by
  obtain ⟨text, kind, hl⟩ := l
  cases hl with
  | comment s =>
      obtain ⟨rfl, rfl⟩ := Prod.mk.inj (Option.some.inj h)
      exact ⟨rfl, trivial, rfl, rfl, rfl, fun hne => absurd rfl hne, fun _ _ => rfl, fun _ hk => by cases hk⟩
  | @label w rest hw hhead hcolon =>
      rw [LineToCommands_label hw hhead hcolon, InsertLabel_eq hw] at h
      split at h
      · split at h
        · next hlen =>
          split at h
          · next hmem =>
              obtain ⟨rfl, rfl⟩ := Prod.mk.inj (Option.some.inj h)
              have hdeclare : AsmLine.declare a.labels a.cur_len ⟨w ++ rest, .label w.dropLast, .label hw hhead hcolon⟩ =
                a.labels := if_pos hmem
              exact ⟨rfl, hlen, rfl, rfl, hdeclare.symm, fun hne => absurd hdeclare hne, fun _ _ => rfl,
                fun _ hk => by cases hk⟩
          · next hmem =>
              split at h
              · next hroom =>
                  obtain ⟨rfl, rfl⟩ := Prod.mk.inj (Option.some.inj h)
                  exact ⟨rfl, hlen, rfl, rfl, (if_neg hmem).symm, fun _ => hroom, fun _ _ => rfl, fun _ hk => by cases hk⟩
              · cases h
        · cases h
      · cases h
  | @arg cmd c s hcmd hc =>
      rw [LineToCommands_name cmd fun _ _ hs => by injection hs with hs; rwa [← hs], generate_pushPop hcmd] at h
      obtain ⟨hfits, rfl, hstored⟩ := HandlePushPop_some h
      exact ⟨rfl, hfits, hstored.capacity, hstored.cur_len, hstored.labels, fun hne => absurd rfl hne, hstored.commands,
        fun _ hk => by cases hk⟩
  | @jump cmd c s label r hcmd hc hlabel =>
      rw [LineToCommands_name cmd fun _ _ hs => by injection hs with hs; rwa [← hs], generate_jump hcmd hc hlabel] at h
      split at h
      · next hlen =>
          obtain ⟨b, hb, hp⟩ := Option.map_eq_some_iff.mp h
          injection hp with ha hn
          subst ha hn
          obtain ⟨hstored, -, hpeek⟩ := writeJmp_some hb
          refine ⟨rfl, hlen, hstored.capacity, hstored.cur_len, hstored.labels, fun hne => absurd rfl hne, hstored.commands,
            fun _ hk => ?_⟩
          injection hk with hk
          exact hk ▸ hpeek
      · cases h
  | @plain cmd rest hp hj hrest =>
      rw [LineToCommands_name cmd hrest, generate_plain hp hj] at h
      obtain ⟨b, hb, hpure⟩ := Option.bind_eq_some_iff.mp h
      obtain ⟨rfl, rfl⟩ := Prod.mk.inj (Option.some.inj hpure)
      have hstored := (Stored.refl 1 a).write hb (le_refl _) (by rw [List.length_singleton]; omega)
      exact ⟨rfl, trivial, hstored.capacity, hstored.cur_len, hstored.labels, fun hne => absurd rfl hne, hstored.commands,
        fun _ hk => by cases hk⟩

/-- A line that fits is assembled when there is room for it. -/
theorem AsmLine.exists_assembled (hr : Room 10 a) (hf : l.Fits)
    (hlabels : l.declare a.labels a.cur_len ≠ a.labels → a.labels.length < MAX_LABELS) :
    ∃ a' n, LineToCommands d a l.text = some (a', n) := by
  obtain ⟨text, kind, hl⟩ := l
  cases hl with
  | comment s => exact ⟨a, 0, rfl⟩
  | @label w rest hw hhead hcolon =>
      have hlen : (w ++ rest).length < MAX_CMD_LEN := hf
      have hlen' : w.length < MAX_CMD_LEN := by
        rw [List.length_append] at hlen
        omega
      dsimp only
      rw [LineToCommands_label hw hhead hcolon, if_pos hlen', InsertLabel_eq hw, if_pos hlen]
      split
      · exact ⟨_, _, rfl⟩
      · next hmem =>
          have hdeclare : AsmLine.declare a.labels a.cur_len ⟨w ++ rest, .label w.dropLast, .label hw hhead hcolon⟩ =
            a.labels ++ [⟨w.dropLast, a.cur_len⟩] := if_neg hmem
          rw [if_pos (hlabels (by rw [hdeclare]; simp))]
          exact ⟨_, _, rfl⟩
  | @arg cmd c s hcmd hc =>
      dsimp only
      rw [LineToCommands_name cmd fun _ _ hs => by injection hs with hs; rwa [← hs], generate_pushPop hcmd]
      obtain ⟨b, hb⟩ := HandlePushPop_exists hr hf
      exact ⟨b, 10, hb⟩
  | @jump cmd c s label r hcmd hc hlabel =>
      dsimp only
      rw [LineToCommands_name cmd fun _ _ hs => by injection hs with hs; rwa [← hs], generate_jump hcmd hc hlabel]
      obtain ⟨b, hb⟩ : ∃ b, writeJmp d a (foundPos a label) cmd.found = some b := writeJmp_exists hr _ _
      have hlen : label.length < MAX_CMD_LEN := hf
      rw [if_pos hlen, hb]
      exact ⟨b, 10, rfl⟩
  | @plain cmd rest hp hj hrest =>
      dsimp only
      rw [LineToCommands_name cmd hrest, generate_plain hp hj]
      obtain ⟨b, hb, -⟩ : ∃ b, a.write a.cur_len [GetCmdNum (cmd.name ++ rest)] = some b ∧ Stored 10 a b :=
        hr.write (Stored.refl 10 a) (le_refl _) (by rw [List.length_singleton]; omega)
      exact ⟨b, 1, Option.bind_eq_some_iff.mpr ⟨b, hb, rfl⟩⟩

/-! ## Texts -/

def texts (text : List AsmLine) : List Str := text.map AsmLine.text

/-- The number of bytes a text writes. -/
def size (text : List AsmLine) : Nat := (text.map fun l => l.kind.size).sum

/-- The table of labels after a text that begins at a position. -/
def table (labels : List Label) (pos : Int) : List AsmLine → List Label
  | [] => labels
  | l :: text => table (l.declare labels pos) (pos + l.kind.size) text

@[simp] theorem size_nil : size [] = 0 := rfl

@[simp] theorem size_cons (l : AsmLine) (text : List AsmLine) : size (l :: text) = l.kind.size + size text := rfl

theorem size_append (text text' : List AsmLine) : size (text ++ text') = size text + size text' := by
  rw [size, List.map_append, List.sum_append]
  rfl

theorem Kind.size_le (kind : Kind) : kind.size ≤ 10 := by
  cases kind <;> simp [size]

/-- The labels of a table stay in front. -/
theorem prefix_declare (labels : List Label) (pos : Int) (l : AsmLine) : labels <+: l.declare labels pos := by
  unfold AsmLine.declare
  split
  · split
    · exact List.prefix_refl _
    · exact List.prefix_append _ _
  · exact List.prefix_refl _

theorem prefix_table (labels : List Label) (pos : Int) (text : List AsmLine) : labels <+: table labels pos text := by
  induction text generalizing labels pos with
  | nil => exact List.prefix_refl _
  | cons l text ih => exact (prefix_declare labels pos l).trans (ih _ _)

/-- What a pass over a text does to the assembler. -/
structure Passed (d : Doubles) (text : List AsmLine) (a a' : Assembler) : Prop where
  fits : ∀ l ∈ text, l.Fits
  capacity : a'.capacity = a.capacity
  cur_len : a'.cur_len = a.cur_len + size text
  labels : a'.labels = table a.labels a.cur_len text
  room : a.labels.length ≤ MAX_LABELS → a'.labels.length ≤ MAX_LABELS
  commands : ∀ k, k < a.cur_len ∨ a.cur_len + size text ≤ k → a'.commands k = a.commands k

theorem nextLine_some {line : Str} (h : nextLine d a line = some a') : ∃ b n, LineToCommands d a line = some (b, n) ∧
    a' = { b with cur_len := b.cur_len + n } := by
  obtain ⟨p, hp, hrest⟩ := Option.bind_eq_some_iff.mp h
  exact ⟨p.1, p.2, hp, (Option.some.inj hrest).symm⟩

theorem EachLineToBin_cons {line : Str} {lines : List Str} : EachLineToBin d (line :: lines) a =
    (nextLine d a line).bind (EachLineToBin d lines) := List.foldlM_cons

theorem EachLineToBin_append {lines lines' : List Str} : EachLineToBin d (lines ++ lines') a =
    (EachLineToBin d lines a).bind (EachLineToBin d lines') := List.foldlM_append

theorem Assembled.room_of (h : Assembled d l a a') (hlen : a.labels.length ≤ MAX_LABELS) :
    a'.labels.length ≤ MAX_LABELS := by
  by_cases hsame : l.declare a.labels a.cur_len = a.labels
  · rwa [h.labels, hsame]
  · have hlt := h.room hsame
    rw [h.labels, AsmLine.declare]
    split
    · split
      · exact hlen
      · rw [List.length_append, List.length_singleton]
        exact hlt
    · exact hlen

theorem EachLineToBin_passed (h : EachLineToBin d (texts text) a = some a') : Passed d text a a' := by
  induction text generalizing a with
  | nil =>
      obtain rfl := Option.some.inj h
      exact ⟨fun l hl => absurd hl List.not_mem_nil, rfl, by simp, rfl, id, fun _ _ => rfl⟩
  | cons l text ih =>
      rw [texts, List.map_cons, EachLineToBin_cons] at h
      obtain ⟨b, hb, hrest⟩ := Option.bind_eq_some_iff.mp h
      obtain ⟨c, n, hc, rfl⟩ := nextLine_some hb
      obtain ⟨rfl, hl⟩ := AsmLine.assembled hc
      have hp := ih hrest
      have hcur : c.cur_len + l.kind.size = a.cur_len + l.kind.size := by rw [hl.cur_len]
      refine ⟨List.forall_mem_cons.mpr ⟨hl.fits, hp.fits⟩, hp.capacity.trans hl.capacity, ?_, ?_, ?_, fun k hk => ?_⟩
      · rw [hp.cur_len, size_cons]
        dsimp only
        rw [hl.cur_len]
        push_cast
        omega
      · rw [hp.labels, table]
        dsimp only
        rw [hl.labels, hl.cur_len]
      · exact fun hlen => hp.room (hl.room_of hlen)
      · rw [size_cons] at hk
        push_cast at hk
        rw [hp.commands k (by dsimp only; rw [hl.cur_len]; omega), hl.commands k (by omega)]

/-- A jump keeps the position it has been given. -/
theorem EachLineToBin_operand {before after : List AsmLine} {label : Str}
    (h : EachLineToBin d (texts text) a = some a') (htext : text = before ++ l :: after) (hl : l.kind = .jump label) :
    ∃ b, EachLineToBin d (texts before) a = some b ∧ peek a'.commands (b.cur_len + 1) = d.ofInt (foundPos b label) := by
  rw [htext, texts, List.map_append, EachLineToBin_append] at h
  obtain ⟨b, hb, hrest⟩ := Option.bind_eq_some_iff.mp h
  rw [List.map_cons, EachLineToBin_cons] at hrest
  obtain ⟨c, hc, hafter⟩ := Option.bind_eq_some_iff.mp hrest
  obtain ⟨e, n, he, rfl⟩ := nextLine_some hc
  obtain ⟨rfl, hline⟩ := AsmLine.assembled he
  refine ⟨b, hb, ?_⟩
  rw [← hline.operand label hl]
  refine peek_congr fun n hn => (EachLineToBin_passed hafter).commands _ (.inl ?_)
  dsimp only
  rw [hline.cur_len, hl, Kind.size]
  push_cast
  omega

/-- A text whose lines fit is assembled when there is room for it. -/
theorem EachLineToBin_exists (hpos : 0 ≤ a.cur_len) (hcap : a.cur_len + 10 * text.length ≤ a.capacity)
    (hf : ∀ l ∈ text, l.Fits) (hlabels : (table a.labels a.cur_len text).length ≤ MAX_LABELS) :
    ∃ a', EachLineToBin d (texts text) a = some a' := by
  induction text generalizing a with
  | nil => exact ⟨a, rfl⟩
  | cons l text ih =>
      rw [List.length_cons] at hcap
      push_cast at hcap
      obtain ⟨b, n, hb⟩ : ∃ b n, LineToCommands d a l.text = some (b, n) := by
        refine AsmLine.exists_assembled ⟨hpos, by omega⟩ (hf l List.mem_cons_self) fun hne => ?_
        have hkept := prefix_declare a.labels a.cur_len l
        have hlen := (prefix_table (l.declare a.labels a.cur_len) (a.cur_len + l.kind.size) text).length_le
        have hlt : a.labels.length < (l.declare a.labels a.cur_len).length :=
          lt_of_le_of_ne hkept.length_le fun heq => hne (hkept.eq_of_length heq).symm
        rw [table] at hlabels
        omega
      obtain ⟨rfl, hl⟩ := AsmLine.assembled hb
      have hsize := l.kind.size_le
      obtain ⟨a', ha'⟩ := ih (a := { b with cur_len := b.cur_len + l.kind.size })
        (by dsimp only; rw [hl.cur_len]; omega) (by dsimp only; rw [hl.cur_len, hl.capacity]; omega)
        (fun l' hl' => hf l' (List.mem_cons_of_mem _ hl')) (by dsimp only; rw [hl.labels, hl.cur_len]; exact hlabels)
      refine ⟨a', ?_⟩
      rw [texts, List.map_cons, EachLineToBin_cons, nextLine, hb]
      exact ha'

end CompilerLab.Asm
