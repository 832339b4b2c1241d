import Mathlib.Data.List.Basic
import Mathlib.Data.List.TakeWhile

/-!
# Conversions of `sscanf`

`%s`, `%[^...]` and `%lg` on the characters of a string. A number is the longest part of the input that begins some number; when
this part is not a number the conversion fails. The values of numbers are not part of this file.
-/

namespace CompilerLab.Lib.Scanf

def isspace (c : Char) : Bool := c == ' ' || (9 ≤ c.toNat && c.toNat ≤ 13)

/-- White space in a format. -/
def skip (s : List Char) : List Char := s.dropWhile isspace

/-- How a conversion ends. -/
inductive Scanned where
  | item (text rest : List Char)
  | mismatch
  | eof
  deriving DecidableEq, Repr

/-- `%s`. -/
def word (s : List Char) : Scanned :=
  if skip s = [] then .eof
  else .item ((skip s).takeWhile fun c => !isspace c) ((skip s).dropWhile fun c => !isspace c)

/-- `%[^...]`. -/
def except (stop : List Char) (s : List Char) : Scanned :=
  if s = [] then .eof
  else if s.takeWhile (fun c => !stop.contains c) = [] then .mismatch
  else .item (s.takeWhile fun c => !stop.contains c) (s.dropWhile fun c => !stop.contains c)

/-- A character of a format. -/
def literal (c : Char) (s : List Char) : Option (List Char) :=
  match s with
  | c' :: rest => if c = c' then some rest else none
  | [] => none

/-! ## Numbers -/

/-- What has been read of a number. `inf` and `nan` count the letters of `infinity` and `nan`; the other words say what comes
last, `point` being a point without digits before it. -/
inductive NumState where
  | start | sign | zero | int | point | frac | exp | expSign | expDigits
  | hex | hexInt | hexPoint | hexFrac | hexExp | hexExpSign | hexExpDigits
  | inf (letters : Nat) | nan (letters : Nat) | nanChars | nanEnd
  deriving DecidableEq, Repr

namespace NumState

def isHexDigit (c : Char) : Bool := c.isDigit || ['a', 'b', 'c', 'd', 'e', 'f'].contains c.toLower

def isSign (c : Char) : Bool := c == '+' || c == '-'

/-- The number begins after its sign. -/
def begin (c : Char) : Option NumState :=
  if c = '0' then some zero
  else if c.isDigit then some int
  else if c = '.' then some point
  else if c.toLower = 'i' then some (inf 1)
  else if c.toLower = 'n' then some (nan 1)
  else none

/-- After digits without a point. -/
def digits (c : Char) : Option NumState :=
  if c.isDigit then some int
  else if c = '.' then some frac
  else if c.toLower = 'e' then some exp
  else none

def next : NumState → Char → Option NumState
  | start, c => if isSign c then some sign else begin c
  | sign, c => begin c
  | zero, c => if c.toLower = 'x' then some hex else digits c
  | int, c => digits c
  | point, c => if c.isDigit then some frac else none
  | frac, c => if c.isDigit then some frac else if c.toLower = 'e' then some exp else none
  | exp, c => if isSign c then some expSign else if c.isDigit then some expDigits else none
  | expSign, c => if c.isDigit then some expDigits else none
  | expDigits, c => if c.isDigit then some expDigits else none
  | hex, c => if isHexDigit c then some hexInt else if c = '.' then some hexPoint else none
  | hexInt, c =>
      if isHexDigit c then some hexInt
      else if c = '.' then some hexFrac
      else if c.toLower = 'p' then some hexExp
      else none
  | hexPoint, c => if isHexDigit c then some hexFrac else none
  | hexFrac, c => if isHexDigit c then some hexFrac else if c.toLower = 'p' then some hexExp else none
  | hexExp, c => if isSign c then some hexExpSign else if c.isDigit then some hexExpDigits else none
  | hexExpSign, c => if c.isDigit then some hexExpDigits else none
  | hexExpDigits, c => if c.isDigit then some hexExpDigits else none
  | inf n, c => if ['i', 'n', 'f', 'i', 'n', 'i', 't', 'y'][n]? = some c.toLower then some (inf (n + 1)) else none
  | nan n, c =>
      if ['n', 'a', 'n'][n]? = some c.toLower then some (nan (n + 1))
      else if n = 3 ∧ c = '(' then some nanChars
      else none
  | nanChars, c => if c = ')' then some nanEnd else if c.isAlphanum || c == '_' then some nanChars else none
  | nanEnd, _ => none

def accepting : NumState → Bool
  | zero | int | frac | expDigits | hexInt | hexFrac | hexExpDigits | nanEnd => true
  | inf n => n == 3 || n == 8
  | nan n => n == 3
  | _ => false

/-- The longest part of the input that begins a number, and what is left. -/
def longest (q : NumState) : List Char → NumState × List Char × List Char
  | [] => (q, [], [])
  | c :: s =>
      match q.next c with
      | some q' => ((longest q' s).1, c :: (longest q' s).2.1, (longest q' s).2.2)
      | none => (q, [], c :: s)

end NumState

open NumState

/-- `%lg`; the item is the text of the number. -/
def number (s : List Char) : Scanned :=
  if skip s = [] then .eof
  else
    let (q, text, rest) := longest .start (skip s)
    if q.accepting then .item text rest else .mismatch

/-- The string is a number. -/
def IsNumber (s : List Char) : Prop := ∃ q, longest .start s = (q, s, []) ∧ q.accepting = true

instance (s : List Char) : Decidable (IsNumber s) :=
  decidable_of_iff ((longest .start s).2 = (s, []) ∧ (longest .start s).1.accepting = true)
    ⟨fun h => ⟨_, Prod.ext rfl h.1, h.2⟩, fun ⟨q, h, hq⟩ => by rw [h]; exact ⟨rfl, hq⟩⟩

/-! ## Words -/

theorem skip_of_not_space {c : Char} (hc : isspace c = false) (s : List Char) : skip (c :: s) = c :: s := by
  rw [skip, List.dropWhile_cons, hc]
  rfl

theorem skip_space (s : List Char) : skip (' ' :: s) = skip s := rfl

theorem skip_head {s t : List Char} {c : Char} (h : skip s = c :: t) : isspace c = false := by
  induction s with
  | nil => cases h
  | cons d s ih =>
      cases hd : isspace d with
      | true =>
          rw [skip, List.dropWhile_cons_of_pos hd] at h
          exact ih h
      | false =>
          rw [skip_of_not_space hd] at h
          injection h with h
          rw [← h, hd]

theorem takeWhile_stop {p : Char → Bool} {w s : List Char} (hw : ∀ c ∈ w, p c = true)
    (hs : ∀ c rest, s = c :: rest → p c = false) : (w ++ s).takeWhile p = w ∧ (w ++ s).dropWhile p = s := by
  induction w with
  | nil =>
      cases s with
      | nil => exact ⟨rfl, rfl⟩
      | cons c rest => simp [hs c rest rfl]
  | cons c w ih =>
      obtain ⟨htake, hdrop⟩ := ih fun c hc => hw c (List.mem_cons_of_mem _ hc)
      have hc := hw c List.mem_cons_self
      simp only [List.cons_append, List.takeWhile_cons, List.dropWhile_cons, hc, if_true]
      exact ⟨congrArg _ htake, hdrop⟩

/-- A word ends at the first white space. -/
theorem word_eq {w rest : List Char} (hne : w ≠ []) (hw : ∀ c ∈ w, isspace c = false)
    (hrest : ∀ c s, rest = c :: s → isspace c = true) : word (w ++ rest) = .item w rest := by
  have hsplit : (w ++ rest).takeWhile (fun c => !isspace c) = w ∧ (w ++ rest).dropWhile (fun c => !isspace c) = rest :=
    takeWhile_stop (fun c hc => by simp [hw c hc]) fun c s hs => by simp [hrest c s hs]
  cases w with
  | nil => exact absurd rfl hne
  | cons c w =>
      have hskip : skip (c :: w ++ rest) = c :: w ++ rest := skip_of_not_space (hw c List.mem_cons_self) _
      rw [word, hskip, if_neg (by simp), hsplit.1, hsplit.2]

theorem word_space (s : List Char) : word (' ' :: s) = word s := by rw [word, word, skip_space]

/-- An item of `%s` is a word. -/
theorem word_item {s w rest : List Char} (h : word s = .item w rest) :
    w ≠ [] ∧ (∀ c ∈ w, isspace c = false) ∧ skip s = w ++ rest := by
  unfold word at h
  split at h
  · cases h
  · next hne =>
      injection h with hw hr
      subst hw hr
      refine ⟨?_, fun c hc => by simpa using List.mem_takeWhile_imp hc, (List.takeWhile_append_dropWhile).symm⟩
      cases hs : skip s with
      | nil => exact absurd hs hne
      | cons c t => simp [skip_head hs]

theorem except_eq {stop w rest : List Char} (hne : w ≠ []) (hw : ∀ c ∈ w, c ∉ stop)
    (hrest : ∀ c s, rest = c :: s → c ∈ stop) : except stop (w ++ rest) = .item w rest := by
  have hsplit : (w ++ rest).takeWhile (fun c => !stop.contains c) = w ∧
      (w ++ rest).dropWhile (fun c => !stop.contains c) = rest :=
    takeWhile_stop (fun c hc => by simpa using hw c hc) fun c s hs => by simpa using hrest c s hs
  rw [except, hsplit.1, hsplit.2, if_neg (by simp [hne]), if_neg hne]

theorem except_mismatch {stop rest : List Char} {c : Char} (hc : c ∈ stop) : except stop (c :: rest) = .mismatch := by
  simp [except, hc]

/-! ## Numbers -/

/-- A character no number goes on with. -/
def Ends (c : Char) : Prop := ∀ q : NumState, q.accepting = true → q.next c = none

theorem ends_space : Ends ' ' := by
  intro q hq
  cases q with
  | inf n =>
      simp only [NumState.accepting, Bool.or_eq_true, beq_iff_eq] at hq
      rcases hq with rfl | rfl <;> rfl
  | nan n =>
      obtain rfl := beq_iff_eq.mp hq
      rfl
  | _ => rfl

theorem ends_plus : Ends '+' := by
  intro q hq
  cases q with
  | inf n =>
      simp only [NumState.accepting, Bool.or_eq_true, beq_iff_eq] at hq
      rcases hq with rfl | rfl <;> rfl
  | nan n =>
      obtain rfl := beq_iff_eq.mp hq
      rfl
  | _ => first | rfl | cases hq

/-- A part that is read to its end is read character by character. -/
theorem longest_cons {q q' : NumState} {c : Char} {s : List Char} (h : longest q (c :: s) = (q', c :: s, [])) :
    ∃ q'', q.next c = some q'' ∧ longest q'' s = (q', s, []) := by
  rw [longest] at h
  cases hn : q.next c with
  | none =>
      rw [hn] at h
      cases h
  | some q'' =>
      rw [hn] at h
      simp only [Prod.mk.injEq, List.cons.injEq, true_and] at h
      exact ⟨q'', rfl, Prod.ext h.1 (Prod.ext h.2.1 h.2.2)⟩

theorem longest_append {q q' : NumState} {s rest : List Char} (h : longest q s = (q', s, []))
    (hrest : ∀ c t, rest = c :: t → q'.next c = none) : longest q (s ++ rest) = (q', s, rest) := by
  induction s generalizing q with
  | nil =>
      injection h with h
      subst h
      cases rest with
      | nil => rfl
      | cons c t =>
          change longest q (c :: t) = _
          rw [longest, hrest c t rfl]
  | cons c s ih =>
      obtain ⟨q'', hn, hs⟩ := longest_cons h
      rw [List.cons_append, longest, hn]
      simp only [ih hs]

/-- The state between two parts. -/
theorem longest_split {q q' : NumState} {s t : List Char} (h : longest q (s ++ t) = (q', s ++ t, [])) :
    ∃ q'', longest q s = (q'', s, []) ∧ longest q'' t = (q', t, []) := by
  induction s generalizing q with
  | nil => exact ⟨q, rfl, h⟩
  | cons c s ih =>
      obtain ⟨q₁, hn, hs⟩ := longest_cons h
      obtain ⟨q₂, hq₂, ht⟩ := ih hs
      refine ⟨q₂, ?_, ht⟩
      rw [longest, hn]
      simp only [hq₂]

theorem number_space (s : List Char) : number (' ' :: s) = number s := by rw [number, number, skip_space]

theorem IsNumber.ne_nil {s : List Char} (h : IsNumber s) : s ≠ [] := by
  rintro rfl
  obtain ⟨q, hq, hacc⟩ := h
  injection hq with hq
  subst hq
  cases hacc

theorem isspace_cases {c : Char} (h : isspace c = true) :
    c = ' ' ∨ c = '\t' ∨ c = '\n' ∨ c = '\x0b' ∨ c = '\x0c' ∨ c = '\r' := by
  simp only [isspace, Bool.or_eq_true, beq_iff_eq, Bool.and_eq_true, decide_eq_true_eq] at h
  rcases h with h | ⟨hlo, hhi⟩
  · exact .inl h
  · have hcases : c.toNat = 9 ∨ c.toNat = 10 ∨ c.toNat = 11 ∨ c.toNat = 12 ∨ c.toNat = 13 := by omega
    have hof := Char.ofNat_toNat c
    rcases hcases with h | h | h | h | h <;> rw [h] at hof <;> simp [← hof]

/-- There is no white space in a number. -/
theorem next_space {c : Char} (h : isspace c = true) (q : NumState) : q.next c = none := by
  cases q with
  | inf n =>
      have hmem : c.toLower ∉ ['i', 'n', 'f', 'i', 'n', 'i', 't', 'y'] := by
        rcases isspace_cases h with rfl | rfl | rfl | rfl | rfl | rfl <;> decide
      rw [NumState.next, if_neg fun heq => hmem (List.mem_of_getElem? heq)]
  | nan n =>
      have hmem : c.toLower ∉ ['n', 'a', 'n'] := by
        rcases isspace_cases h with rfl | rfl | rfl | rfl | rfl | rfl <;> decide
      have hparen : c ≠ '(' := by
        rcases isspace_cases h with rfl | rfl | rfl | rfl | rfl | rfl <;> decide
      rw [NumState.next, if_neg fun heq => hmem (List.mem_of_getElem? heq), if_neg fun heq => hparen heq.2]
  | _ => rcases isspace_cases h with rfl | rfl | rfl | rfl | rfl | rfl <;> rfl

theorem longest_not_isspace {q q' : NumState} {s : List Char} (h : longest q s = (q', s, [])) :
    ∀ c ∈ s, isspace c = false := by
  induction s generalizing q with
  | nil => exact fun c hc => absurd hc List.not_mem_nil
  | cons c s ih =>
      obtain ⟨q'', hn, hs⟩ := longest_cons h
      refine List.forall_mem_cons.mpr ⟨?_, ih hs⟩
      cases hc : isspace c with
      | false => rfl
      | true =>
          rw [next_space hc] at hn
          cases hn

theorem IsNumber.not_isspace {s : List Char} (h : IsNumber s) : ∀ c ∈ s, isspace c = false := by
  obtain ⟨q, hq, -⟩ := h
  exact longest_not_isspace hq

/-- A number is read up to what ends it. -/
theorem IsNumber.number_eq {s rest : List Char} (h : IsNumber s) (hrest : ∀ c t, rest = c :: t → Ends c) :
    number (s ++ rest) = .item s rest := by
  cases s with
  | nil => exact absurd rfl h.ne_nil
  | cons c s =>
      have hskip : skip (c :: s ++ rest) = c :: s ++ rest := skip_of_not_space (h.not_isspace c List.mem_cons_self) _
      obtain ⟨q, hq, hacc⟩ := h
      rw [number, hskip, if_neg (by simp), longest_append hq fun c t hct => hrest c t hct q hacc]
      simp [hacc]

/-! ## Exponents with a plus -/

theorem next_ne_start {q : NumState} {c : Char} : q.next c ≠ some .start := by
  cases q <;> simp only [NumState.next, NumState.begin, NumState.digits] <;> repeat' split
  all_goals simp

theorem longest_ne_start {q q' : NumState} {s : List Char} (hs : s ≠ []) (h : longest q s = (q', s, [])) :
    q' ≠ .start := by
  induction s generalizing q with
  | nil => exact absurd rfl hs
  | cons c s ih =>
      obtain ⟨q'', hn, hrest⟩ := longest_cons h
      cases s with
      | nil =>
          injection hrest with hq
          subst hq
          exact fun heq => next_ne_start (heq ▸ hn)
      | cons c' s => exact ih (by simp) hrest

/-- A plus that is not a sign of the whole number is the sign of an exponent. -/
theorem next_plus {q q' : NumState} (h : q.next '+' = some q') (hq : q ≠ .start) : q' = .expSign ∨ q' = .hexExpSign := by
  cases q with
  | start => exact absurd rfl hq
  | exp =>
      injection h with h
      exact .inl h.symm
  | hexExp =>
      injection h with h
      exact .inr h.symm
  | inf n =>
      have hmem : Char.toLower '+' ∉ ['i', 'n', 'f', 'i', 'n', 'i', 't', 'y'] := by decide
      rw [NumState.next, if_neg fun heq => hmem (List.mem_of_getElem? heq)] at h
      cases h
  | nan n =>
      have hmem : Char.toLower '+' ∉ ['n', 'a', 'n'] := by decide
      rw [NumState.next, if_neg fun heq => hmem (List.mem_of_getElem? heq), if_neg (by simp)] at h
      cases h
  | _ => cases h

theorem digits_of_longest {q' : NumState} {s : List Char}
    (h : longest .expDigits s = (q', s, []) ∨ longest .hexExpDigits s = (q', s, [])) : ∀ c ∈ s, c.isDigit = true := by
  induction s with
  | nil => exact fun c hc => absurd hc List.not_mem_nil
  | cons c s ih =>
      rcases h with h | h
      · obtain ⟨q, hn, hs⟩ := longest_cons h
        rw [NumState.next] at hn
        split at hn
        · next hc =>
            injection hn with hn
            subst hn
            exact List.forall_mem_cons.mpr ⟨hc, ih (.inl hs)⟩
        · cases hn
      · obtain ⟨q, hn, hs⟩ := longest_cons h
        rw [NumState.next] at hn
        split at hn
        · next hc =>
            injection hn with hn
            subst hn
            exact List.forall_mem_cons.mpr ⟨hc, ih (.inr hs)⟩
        · cases hn

theorem int_of_digits {s : List Char} (h : ∀ c ∈ s, c.isDigit = true) : longest .int s = (.int, s, []) := by
  induction s with
  | nil => rfl
  | cons c s ih =>
      obtain ⟨hc, hs⟩ := List.forall_mem_cons.mp h
      rw [longest, NumState.next, NumState.digits, if_pos hc]
      simp only [ih hs]

theorem toLower_of_isDigit {c : Char} (h : c.isDigit = true) : c.toLower = c := by
  rw [Char.isDigit, Bool.and_eq_true, decide_eq_true_eq, decide_eq_true_eq] at h
  refine dif_neg fun hc => ?_
  have hle := UInt32.le_iff_toNat_le.mp hc.1
  have hle' := UInt32.le_iff_toNat_le.mp h.2
  have hA : ('A' : Char).val.toNat = 65 := rfl
  have h9 : ('9' : Char).val.toNat = 57 := rfl
  omega

theorem isNumber_of_digits {c : Char} {s : List Char} (h : ∀ c' ∈ c :: s, c'.isDigit = true) : IsNumber (c :: s) := by
  obtain ⟨hc, hs⟩ := List.forall_mem_cons.mp h
  have hsign : isSign c ≠ true := by
    intro hsign
    rcases Bool.or_eq_true _ _ ▸ hsign with hsign | hsign
    · rw [beq_iff_eq.mp hsign] at hc
      cases hc
    · rw [beq_iff_eq.mp hsign] at hc
      cases hc
  have hfirst : NumState.start.next c = some (if c = '0' then .zero else .int) := by
    rw [NumState.next, if_neg hsign, NumState.begin]
    split
    · rfl
    · rfl
  by_cases hzero : c = '0'
  · rw [if_pos hzero] at hfirst
    cases s with
    | nil => exact ⟨.zero, by rw [longest, hfirst]; rfl, rfl⟩
    | cons c' s =>
        obtain ⟨hc', hs'⟩ := List.forall_mem_cons.mp hs
        have hx : c'.toLower ≠ 'x' := by
          rw [toLower_of_isDigit hc']
          rintro rfl
          cases hc'
        refine ⟨.int, ?_, rfl⟩
        rw [longest, hfirst]
        simp only [longest, NumState.next, if_neg hx, NumState.digits, if_pos hc', int_of_digits hs']
  · rw [if_neg hzero] at hfirst
    refine ⟨.int, ?_, rfl⟩
    rw [longest, hfirst]
    simp only [int_of_digits hs]

/-- What follows such a plus is a number. -/
theorem IsNumber.after_plus {u v : List Char} (h : IsNumber (u ++ '+' :: v)) (hu : u ≠ []) : IsNumber v := by
  obtain ⟨q, hq, hacc⟩ := h
  obtain ⟨q₁, h₁, hrest⟩ := longest_split hq
  obtain ⟨q₂, hplus, hv⟩ := longest_cons hrest
  cases v with
  | nil =>
      injection hv with hv
      subst hv
      rcases next_plus hplus (longest_ne_start hu h₁) with rfl | rfl <;> cases hacc
  | cons c v =>
      obtain ⟨q₃, hn, hv'⟩ := longest_cons hv
      refine isNumber_of_digits ?_
      rcases next_plus hplus (longest_ne_start hu h₁) with rfl | rfl
      · rw [NumState.next] at hn
        split at hn
        · next hc =>
            injection hn with hn
            subst hn
            exact List.forall_mem_cons.mpr ⟨hc, digits_of_longest (.inl hv')⟩
        · cases hn
      · rw [NumState.next] at hn
        split at hn
        · next hc =>
            injection hn with hn
            subst hn
            exact List.forall_mem_cons.mpr ⟨hc, digits_of_longest (.inr hv')⟩
        · cases hn

theorem literal_of_head_ne {c : Char} {s : List Char} (h : ∀ t, s ≠ c :: t) : literal c s = none := by
  cases s with
  | nil => rfl
  | cons c' t => exact if_neg fun hc => h t (by rw [hc])

theorem digit_cases {c : Char} (h : c.isDigit = true) : c ∈ ['0', '1', '2', '3', '4', '5', '6', '7', '8', '9'] := by
  rw [Char.isDigit, Bool.and_eq_true, decide_eq_true_eq, decide_eq_true_eq] at h
  have hlow := UInt32.le_iff_toNat_le.1 h.1
  have hhigh := UInt32.le_iff_toNat_le.1 h.2
  have h0 : ('0' : Char).val.toNat = 48 := rfl
  have h9 : ('9' : Char).val.toNat = 57 := rfl
  have hval : c.toNat = c.val.toNat := rfl
  have hcases : c.toNat = 48 ∨ c.toNat = 49 ∨ c.toNat = 50 ∨ c.toNat = 51 ∨ c.toNat = 52 ∨ c.toNat = 53 ∨ c.toNat = 54 ∨
      c.toNat = 55 ∨ c.toNat = 56 ∨ c.toNat = 57 := by omega
  have hof := Char.ofNat_toNat c
  rcases hcases with h | h | h | h | h | h | h | h | h | h <;> rw [h] at hof <;> simp [← hof]

theorem isDigit_not_alpha {c : Char} (h : c.isDigit = true) : c.isAlpha = false := by
  have hall : (['0', '1', '2', '3', '4', '5', '6', '7', '8', '9'].all fun c => !c.isAlpha) = true := rfl
  simpa using List.all_eq_true.1 hall c (digit_cases h)

/-- The operations and the closing bracket end a number. -/
theorem ends_operation {c : Char} (hc : c ∈ ['+', '-', '*', '/', '^', ')']) : Ends c := by
  simp only [List.mem_cons, List.not_mem_nil, or_false] at hc
  intro q hq
  cases q with
  | inf n =>
      simp only [NumState.accepting, Bool.or_eq_true, beq_iff_eq] at hq
      rcases hq with rfl | rfl <;> rcases hc with rfl | rfl | rfl | rfl | rfl | rfl <;> rfl
  | nan n =>
      obtain rfl := beq_iff_eq.mp hq
      rcases hc with rfl | rfl | rfl | rfl | rfl | rfl <;> rfl
  | _ => rcases hc with rfl | rfl | rfl | rfl | rfl | rfl <;> first | rfl | cases hq

end CompilerLab.Lib.Scanf
