import CompilerLab.Language.TreeToAsm

/-!
# What the table of names holds

A function keeps its names behind `namespace_pointer`. The functions around it keep theirs before it, as long as they have room.
-/

namespace CompilerLab.Language

variable {t t' : Nat → Option String} {names : List String} {outer : List (List String)}

/-- The names stand in the table from `base` on. -/
def Entries (t : Nat → Option String) (base : Nat) (names : List String) : Prop :=
  ∀ i name, names[i]? = some name → t (base + i) = some name

/-- What the table holds for the enclosing functions, the innermost first. The names outside of all functions are gone. -/
def Enclosing (t : Nat → Option String) : List (List String) → Prop
  | [] => True
  | [names] => names ≠ [] → t 0 = none
  | names :: below :: rest =>
      names.length ≤ MAX_VARIABLES ∧ Entries t (MAX_VARIABLES * (rest.length + 1)) names ∧ Enclosing t (below :: rest)

/-- The names of the current function and of the enclosing ones. -/
structure Represents (s : Namespaces) (names : List String) (outer : List (List String)) : Prop where
  offset : s.namespace_offset = names.length :: outer.map List.length
  pointer : s.namespace_pointer = MAX_VARIABLES * outer.length
  entries : Entries s._namespace s.namespace_pointer names ∨ outer = [] ∧ names ≠ [] ∧ s._namespace 0 = none
  enclosing : Enclosing s._namespace outer

/-! ## The entries -/

theorem Entries.congr {base : Nat} (h : Entries t base names) (ht : ∀ i < names.length, t' (base + i) = t (base + i)) :
    Entries t' base names := by
  intro i name hi
  rw [ht i (List.getElem?_eq_some_iff.1 hi).1]
  exact h i name hi

/-- What is written behind the enclosing functions does not matter to them, nor what is cleared in front of all functions. -/
theorem Enclosing.congr (h : Enclosing t outer) (hfar : ∀ i < MAX_VARIABLES * outer.length, MAX_VARIABLES ≤ i → t' i = t i)
    (hfirst : outer ≠ [] → t 0 = none → t' 0 = none) : Enclosing t' outer := by
  induction outer with
  | nil => trivial
  | cons names outer ih =>
      cases outer with
      | nil => exact fun hnames => hfirst (List.cons_ne_nil _ _) (h hnames)
      | cons below rest =>
          obtain ⟨hroom, hentries, hrest⟩ := h
          refine ⟨hroom, hentries.congr fun i hi => hfar _ ?_ ?_, ih hrest (fun i hi => hfar i ?_) fun _ => hfirst (List.cons_ne_nil _ _)⟩
          · simp only [List.length_cons, MAX_VARIABLES] at hroom ⊢
            omega
          · simp only [MAX_VARIABLES]
            omega
          · simp only [List.length_cons, MAX_VARIABLES] at hi ⊢
            omega

theorem Entries.findFrom {s : Namespaces} (h : Entries s._namespace s.namespace_pointer names) {name : String} {left i : Nat}
    {position : Option Nat} (hi : i + left ≤ names.length) (hbefore : name ∉ names.take i)
    (hrun : s.findFrom name left (s.namespace_pointer + i) = .ok position) :
    (∀ k, position = some k → names[k]? = some name) ∧ (position = none → name ∉ names.take (i + left)) := by
  induction left generalizing i with
  | zero =>
      cases hrun
      exact ⟨fun _ hk => (by cases hk), fun _ => hbefore⟩
  | succ left ih =>
      have hlt : i < names.length := by omega
      simp only [Namespaces.findFrom] at hrun
      split_ifs at hrun
      rw [h i _ (List.getElem?_eq_getElem hlt)] at hrun
      dsimp only at hrun
      split_ifs at hrun with heq
      · cases hrun
        refine ⟨fun k hk => ?_, fun hk => by cases hk⟩
        cases hk
        rw [Nat.add_sub_cancel_left, ← heq]
        exact List.getElem?_eq_getElem hlt
      · have hnext : name ∉ names.take (i + 1) := by
          rw [List.take_succ_eq_append_getElem hlt, List.mem_append, List.mem_singleton]
          exact not_or.2 ⟨hbefore, fun h => heq h.symm⟩
        have := ih (by omega) hnext hrun
        rwa [Nat.add_assoc, Nat.add_comm 1] at this

namespace Represents

variable {s s' : Namespaces} (h : Represents s names outer)
include h

theorem pop_eq : s.pop = .ok (names.length, { s with namespace_offset := outer.map List.length }) := by
  rw [Namespaces.pop, h.offset]

/-! ## The operations -/

theorem vars_before {n : Nat} (hrun : Namespaces.names.vars_before s = .ok n) : n = names.length := by
  simp only [Namespaces.names, h.pop_eq, bind, Except.bind, Namespaces.push] at hrun
  split_ifs at hrun
  cases hrun
  rfl

theorem find {amount : Nat} {name : String} {position : Option Nat} (hamount : amount ≤ names.length)
    (hrun : Namespaces.names.find amount name s = .ok position) :
    (∀ k, position = some k → names[k]? = some name) ∧ (position = none → name ∉ names.take amount) := by
  simp only [Namespaces.names] at hrun
  obtain hentries | ⟨rfl, -, hnone⟩ := h.entries
  · simpa using hentries.findFrom (i := 0) (by omega) (by simp) hrun
  · cases amount with
    | zero =>
        cases hrun
        simp
    | succ amount =>
        have hpointer : s.namespace_pointer = 0 := h.pointer
        simp only [Namespaces.findFrom, hpointer, hnone] at hrun
        split_ifs at hrun

theorem insert {name : String} (hrun : Namespaces.names.insert names.length name s = .ok s') :
    Represents s' (names ++ [name]) outer := by
  simp only [Namespaces.names, Namespaces.pop, h.offset, bind, Except.bind, Namespaces.push] at hrun
  split_ifs at hrun with hroom
  cases hrun
  have hfar : names.length + s.namespace_pointer ≥ MAX_VARIABLES * outer.length := by
    rw [h.pointer]
    exact Nat.le_add_left _ _
  constructor
  · simp
  · exact h.pointer
  · obtain hentries | ⟨rfl, hne, hnone⟩ := h.entries
    · left
      intro i other hi
      dsimp only
      by_cases hlt : i < names.length
      · rw [List.getElem?_append_left hlt] at hi
        rw [if_neg (by omega)]
        exact hentries i other hi
      · have hlength := (List.getElem?_eq_some_iff.1 hi).1
        rw [List.length_append, List.length_singleton] at hlength
        obtain rfl : i = names.length := by omega
        rw [List.getElem?_concat_length, Option.some.injEq] at hi
        rw [if_pos (Nat.add_comm _ _), hi]
    · refine .inr ⟨rfl, List.append_ne_nil_of_left_ne_nil hne _, ?_⟩
      have hlength := List.length_pos_iff.2 hne
      dsimp only
      rw [if_neg (by omega), hnone]
  · refine h.enclosing.congr (fun i hi _ => if_neg (by omega)) fun houter hnone => ?_
    have hlength := List.length_pos_iff.2 houter
    have hpointer := h.pointer
    rw [MAX_VARIABLES] at hpointer
    dsimp only
    rw [if_neg (by omega), hnone]

theorem declare (hroom : outer ≠ [] → names.length ≤ MAX_VARIABLES)
    (hrun : Namespaces.names.declare names.length s = .ok s') : Represents s' [] (names :: outer) := by
  simp only [Namespaces.names, bind, Except.bind, Namespaces.push] at hrun
  split_ifs at hrun with hbound
  cases hrun
  constructor
  · simp [h.offset]
  · rw [List.length_cons, Nat.mul_succ, ← h.pointer]
  · exact .inl fun i name hi => by simp at hi
  · cases outer with
    | nil => exact fun hnames => if_pos (List.length_pos_iff.2 hnames)
    | cons below rest =>
        have hroom := hroom (List.cons_ne_nil _ _)
        obtain hentries | ⟨hnil, -, -⟩ := h.entries
        · rw [h.pointer] at hentries
          refine ⟨hroom, hentries.congr fun i hi => if_neg ?_, h.enclosing.congr (fun i _ hi => if_neg ?_) fun _ hnone => ?_⟩
          · simp only [List.length_cons, MAX_VARIABLES] at hroom ⊢
            omega
          · omega
          · dsimp only
            rw [hnone, ite_self]
        · cases hnil

omit h in
theorem leave {below : List String} (h : Represents s names (below :: outer)) (hrun : Namespaces.names.leave s = .ok s') :
    Represents s' below outer := by
  simp only [Namespaces.names, h.pop_eq, bind, Except.bind] at hrun
  cases hrun
  have hpointer : s.namespace_pointer - MAX_VARIABLES = MAX_VARIABLES * outer.length := by
    rw [h.pointer, List.length_cons, Nat.mul_succ, Nat.add_sub_cancel]
  constructor
  · rfl
  · exact hpointer
  · cases outer with
    | nil =>
        by_cases hbelow : below = []
        · exact .inl fun i name hi => by simp [hbelow] at hi
        · exact .inr ⟨rfl, hbelow, h.enclosing hbelow⟩
    | cons next rest =>
        refine .inl ?_
        dsimp only
        rw [hpointer]
        exact h.enclosing.2.1
  · cases outer with
    | nil => trivial
    | cons next rest => exact h.enclosing.2.2

end Represents

end CompilerLab.Language
