import CompilerLab.Derivative.Simplify

/-!
# The simplifier on trees

On a tree whose nodes are not shared the code in memory does what `TreeNode.simplify` does.
-/

namespace CompilerLab.Derivative

open TreeNode (null num var op leaf root simplify height)

variable {α : Type*} {A : Arith α} {h h' : Memory α} {p a b c : Nat} {q : Option Nat} {s t : TreeNode α}
  {o : Operations} {left right value : Values α}

/-! ## Trees in memory -/

theorem Represents.unique (hs : Represents h q s) (ht : Represents h q t) : s = t := by
  induction hs generalizing t with
  | null =>
      cases ht
      rfl
  | num hp =>
      cases ht with
      | num hp' => cases hp.symm.trans hp'; rfl
      | var hp' => cases hp.symm.trans hp'
      | op hp' _ _ => cases hp.symm.trans hp'
  | var hp =>
      cases ht with
      | num hp' => cases hp.symm.trans hp'
      | var hp' => cases hp.symm.trans hp'; rfl
      | op hp' _ _ => cases hp.symm.trans hp'
  | op hp _ _ ihl ihr =>
      cases ht with
      | num hp' => cases hp.symm.trans hp'
      | var hp' => cases hp.symm.trans hp'
      | op hp' hl hr =>
          cases hp.symm.trans hp'
          rw [ihl hl, ihr hr]

/-- The node a pointer leads to holds what the root of its tree does. -/
theorem Represents.root_eq (ht : Represents h (some p) t) : ∃ node, h p = some node ∧ t.root = some node.value := by
  cases ht with
  | num hp => exact ⟨_, hp, rfl⟩
  | var hp => exact ⟨_, hp, rfl⟩
  | op hp _ _ => exact ⟨_, hp, rfl⟩

theorem Represents.root_none (ht : Represents h none t) : t.root = none := by
  cases ht
  rfl

theorem represents_leaf (hv : value.isOp = false) (hp : h p = some ⟨value, none, none⟩) :
    Represents h (some p) (leaf value) := by
  cases value with
  | dbl_val d => exact .num hp
  | var_name name => exact .var hp
  | op_val o => cases hv

/-- A tree whose root is no operation is a leaf. -/
theorem eq_leaf (ht : t.root = some value) (hv : value.isOp = false) : t = leaf value := by
  cases t with
  | null => cases ht
  | num d => cases ht; rfl
  | var name => cases ht; rfl
  | op o l r => cases ht; cases hv

/-! ## The rules -/

theorem numberCases_isOp (hr : numberCases A o left right = some value) : value.isOp = false := by
  unfold numberCases at hr
  split at hr
  · split at hr
    · cases hr
      rfl
    · cases hr
      rfl
    · cases hr
  · cases hr

theorem mulCases_isOp (hr : mulCases A left right = some value) : value.isOp = false := by
  unfold mulCases at hr
  split at hr
  · cases hr
    rfl
  · split at hr
    · cases hr
      rfl
    · split at hr
      · cases left with
        | dbl_val d => cases hr; rfl
        | var_name name => cases hr; rfl
        | op_val o => cases hr
      · split at hr
        · cases right with
          | dbl_val d => cases hr; rfl
          | var_name name => cases hr; rfl
          | op_val o => cases hr
        · cases hr

/-- A node that is transformed has leaves for children, and becomes a leaf. -/
theorem rewrite_isOp (hr : rewrite A o left right = some value) :
    left.isOp = false ∧ right.isOp = false ∧ value.isOp = false := by
  unfold rewrite at hr
  split at hr
  · cases hr
  · next hop =>
      rw [Bool.or_eq_true, not_or, Bool.not_eq_true, Bool.not_eq_true] at hop
      refine ⟨hop.1, hop.2, ?_⟩
      split at hr
      · cases hm : mulCases A left right with
        | some v =>
            rw [hm] at hr
            cases hr
            exact mulCases_isOp hm
        | none =>
            rw [hm] at hr
            exact numberCases_isOp hr
      · exact numberCases_isOp hr

theorem free_eq {node : Node α} (hp : h p = some node) : free h p = some (Function.update h p none) := by
  rw [free, hp]
  rfl

theorem transformNode_eq (value : Values α) {l r : Nat} {node nodeₗ nodeᵣ : Node α} (hp : h p = some node)
    (hleft : node.left = some l) (hright : node.right = some r) (hl : h l = some nodeₗ) (hr : h r = some nodeᵣ)
    (hpl : l ≠ p) (hpr : r ≠ p) (hlr : r ≠ l) :
    ∃ h', transformNode h p value = some h' ∧ h' p = some ⟨value, none, none⟩ ∧ h' l = none ∧ h' r = none ∧
      ∀ a, a ≠ p → a ≠ l → a ≠ r → h' a = h a := by
  obtain ⟨v, pl, pr⟩ := node
  obtain rfl : pl = some l := hleft
  obtain rfl : pr = some r := hright
  have hl' : Function.update h p (some ⟨value, some l, some r⟩) l = some nodeₗ := by rw [Function.update_of_ne hpl, hl]
  have hr' : Function.update (Function.update h p (some ⟨value, some l, some r⟩)) l none r = some nodeᵣ := by
    rw [Function.update_of_ne hlr, Function.update_of_ne hpr, hr]
  simp only [transformNode, hp, freeChild, free_eq hl', free_eq hr', Option.bind_eq_bind, Option.bind_some,
    Option.pure_def]
  refine ⟨_, rfl, Function.update_self _ _ _, ?_, ?_, fun a hap hal har => ?_⟩
  · rw [Function.update_of_ne hpl, Function.update_of_ne hlr.symm, Function.update_self]
  · rw [Function.update_of_ne hpr, Function.update_self]
  · rw [Function.update_of_ne hap, Function.update_of_ne har, Function.update_of_ne hal, Function.update_of_ne hap]

/-- A child cannot be freed twice. -/
theorem transformNode_same (value : Values α) {l : Nat} {node : Node α} (hp : h p = some node) (hleft : node.left = some l)
    (hright : node.right = some l) : transformNode h p value = none := by
  obtain ⟨v, pl, pr⟩ := node
  obtain rfl : pl = some l := hleft
  obtain rfl : pr = some l := hright
  simp only [transformNode, hp, freeChild, free, Option.bind_eq_bind, Option.bind_some, Option.pure_def]
  cases Function.update h p (some ⟨value, some l, some l⟩) l with
  | none => rfl
  | some node => simp

/-! ## Nodes under a node -/

/-- The node at `a` has a child at `b`. -/
def Child (h : Memory α) (a b : Nat) : Prop := ∃ node, h a = some node ∧ (node.left = some b ∨ node.right = some b)

def Reaches (h : Memory α) : Nat → Nat → Prop := Relation.ReflTransGen (Child h)

theorem Represents.child (hs : Represents h (some a) s) (hab : Child h a b) :
    ∃ t, Represents h (some b) t ∧ t.height < s.height := by
  obtain ⟨node, hnode, hb⟩ := hab
  cases hs with
  | num hp =>
      cases hp.symm.trans hnode
      rcases hb with hb | hb
      · cases hb
      · cases hb
  | var hp =>
      cases hp.symm.trans hnode
      rcases hb with hb | hb
      · cases hb
      · cases hb
  | op hp hl hr =>
      cases hp.symm.trans hnode
      rcases hb with hb | hb
      · exact ⟨_, hb ▸ hl, Nat.lt_succ_of_le (le_max_left _ _)⟩
      · exact ⟨_, hb ▸ hr, Nat.lt_succ_of_le (le_max_right _ _)⟩

theorem Represents.reaches (hs : Represents h (some a) s) (hab : Reaches h a b) :
    ∃ t, Represents h (some b) t ∧ t.height ≤ s.height := by
  induction hab with
  | refl => exact ⟨s, hs, le_refl _⟩
  | tail _ hchild ih =>
      obtain ⟨t, ht, hle⟩ := ih
      obtain ⟨u, hu, hlt⟩ := ht.child hchild
      exact ⟨u, hu, (Nat.le_of_lt hlt).trans hle⟩

/-- No way leads from a child back to its node. -/
theorem Represents.not_reaches (hs : Represents h (some a) s) (hab : Child h a b) : ¬ Reaches h b a := by
  intro hba
  obtain ⟨t, ht, hlt⟩ := hs.child hab
  obtain ⟨u, hu, hle⟩ := ht.reaches hba
  rw [hu.unique hs] at hle
  exact absurd hle (Nat.not_le.2 hlt)

/-! ## Nodes that are transformed -/

/-- The two ways a call ends at an operation. -/
theorem simplify_op (A : Arith α) (o : Operations) (l r : TreeNode α) :
    (∃ left right value, (simplify A l).1.root = some left ∧ (simplify A r).1.root = some right ∧
      rewrite A o left right = some value ∧ simplify A (op o l r) = (leaf value, 1)) ∨
    (∀ left ∈ (simplify A l).1.root, ∀ right ∈ (simplify A r).1.root, rewrite A o left right = none) ∧
      (simplify A (op o l r)).1 = op o (simplify A l).1 (simplify A r).1 ∧
      (simplify A (op o l r)).2 ≤ (simplify A l).2 + (simplify A r).2 := by
  rw [simplify]
  cases hl : (simplify A l).1.root with
  | none => exact .inr ⟨(fun _ h => nomatch h), rfl, Nat.zero_le _⟩
  | some left =>
      cases hr : (simplify A r).1.root with
      | none => exact .inr ⟨(fun _ _ _ h => nomatch h), rfl, Nat.zero_le _⟩
      | some right =>
          cases hrw : rewrite A o left right with
          | some value => exact .inl ⟨left, right, value, rfl, rfl, hrw, by simp only [hrw]⟩
          | none =>
              refine .inr ⟨?_, by simp only [hrw], by simp only [hrw, le_refl]⟩
              rintro _ ⟨⟩ _ ⟨⟩
              exact hrw

/-- The node at `a` is transformed to a leaf with the given value when its children have been simplified. -/
def Collapses (A : Arith α) (h : Memory α) (a : Nat) (value : Values α) : Prop :=
  ∃ o l r tl tr left right, h a = some ⟨.op_val o, some l, some r⟩ ∧ Represents h (some l) tl ∧ Represents h (some r) tr ∧
    (simplify A tl).1.root = some left ∧ (simplify A tr).1.root = some right ∧ rewrite A o left right = some value

theorem Collapses.isOp (hc : Collapses A h a value) : value.isOp = false := by
  obtain ⟨o, l, r, tl, tr, left, right, -, -, -, -, -, hrw⟩ := hc
  exact (rewrite_isOp hrw).2.2

theorem Collapses.simplify_eq (hc : Collapses A h a value) (hs : Represents h (some a) s) :
    simplify A s = (leaf value, 1) := by
  obtain ⟨o, l, r, tl, tr, left, right, ha, hl, hr, hleft, hright, hrw⟩ := hc
  have hop := Represents.op ha hl hr
  rw [hs.unique hop]
  simp only [simplify, hleft, hright, hrw]

/-- A node that is not transformed keeps its children. -/
theorem simplify_of_not_collapses (hs : Represents h (some a) (.op o s t)) (hc : ∀ value, ¬ Collapses A h a value) :
    (simplify A (.op o s t)).1 = .op o (simplify A s).1 (simplify A t).1 := by
  rcases simplify_op A o s t with ⟨left, right, value, hleft, hright, hrw, -⟩ | ⟨-, heq, -⟩
  · cases hs with
    | @op _ _ ql qr _ _ ha hl hr =>
        cases ql with
        | none =>
            cases hl
            cases hleft
        | some l =>
            cases qr with
            | none =>
                cases hr
                cases hright
            | some r => exact absurd ⟨o, l, r, s, t, left, right, ha, hl, hr, hleft, hright, hrw⟩ (hc value)
  · exact heq

theorem root_of_not_collapses (hs : Represents h (some a) s) (hc : ∀ value, ¬ Collapses A h a value) :
    (simplify A s).1.root = s.root := by
  cases hs with
  | num _ => rfl
  | var _ => rfl
  | op ha hl hr =>
      rw [simplify_of_not_collapses (.op ha hl hr) hc]
      rfl

/-- The nodes at or under `a` that are transformed. -/
def collapsing (A : Arith α) (h : Memory α) (a : Nat) : Set Nat := {c | Reaches h a c ∧ ∃ value, Collapses A h c value}

/-- The nodes under a pointer that are transformed. -/
def under (A : Arith α) (h : Memory α) (q : Option Nat) : Set Nat := {c | ∃ a, q = some a ∧ c ∈ collapsing A h a}

theorem reaches_of_op {ql qr : Option Nat} (hp : h p = some ⟨value, ql, qr⟩) :
    Reaches h p c ↔ c = p ∨ (∃ l, ql = some l ∧ Reaches h l c) ∨ ∃ r, qr = some r ∧ Reaches h r c := by
  constructor
  · intro hc
    rcases Relation.ReflTransGen.cases_head hc with rfl | ⟨b, ⟨node, hnode, hb⟩, hbc⟩
    · exact .inl rfl
    · cases hp.symm.trans hnode
      rcases hb with hb | hb
      · exact .inr (.inl ⟨b, hb, hbc⟩)
      · exact .inr (.inr ⟨b, hb, hbc⟩)
  · rintro (rfl | ⟨l, rfl, hl⟩ | ⟨r, rfl, hr⟩)
    · exact .refl
    · exact .head ⟨_, hp, .inl rfl⟩ hl
    · exact .head ⟨_, hp, .inr rfl⟩ hr

theorem mem_collapsing_of_op {ql qr : Option Nat} (hp : h p = some ⟨value, ql, qr⟩) :
    c ∈ collapsing A h p ↔ (c = p ∧ ∃ v, Collapses A h p v) ∨ c ∈ under A h ql ∨ c ∈ under A h qr := by
  constructor
  · rintro ⟨hc, hcollapses⟩
    rcases (reaches_of_op hp).1 hc with rfl | ⟨l, hl, hlc⟩ | ⟨r, hr, hrc⟩
    · exact .inl ⟨rfl, hcollapses⟩
    · exact .inr (.inl ⟨l, hl, hlc, hcollapses⟩)
    · exact .inr (.inr ⟨r, hr, hrc, hcollapses⟩)
  · rintro (⟨rfl, hcollapses⟩ | ⟨l, hl, hlc, hcollapses⟩ | ⟨r, hr, hrc, hcollapses⟩)
    · exact ⟨.refl, hcollapses⟩
    · exact ⟨(reaches_of_op hp).2 (.inr (.inl ⟨l, hl, hlc⟩)), hcollapses⟩
    · exact ⟨(reaches_of_op hp).2 (.inr (.inr ⟨r, hr, hrc⟩)), hcollapses⟩

/-! ## Memory in which nodes have been transformed -/

def Freed (h : Memory α) (C : Set Nat) (a : Nat) : Prop := ∃ c ∈ C, Child h c a

/-- The memory `h'` is `h` after the nodes of `C` have been transformed. -/
structure After (A : Arith α) (h : Memory α) (C : Set Nat) (h' : Memory α) : Prop where
  freed : ∀ a, Freed h C a → h' a = none
  collapsed : ∀ a, ¬ Freed h C a → a ∈ C → ∃ value, Collapses A h a value ∧ h' a = some ⟨value, none, none⟩
  kept : ∀ a, ¬ Freed h C a → a ∉ C → h' a = h a
  closed : ∀ c ∈ C, collapsing A h c ⊆ C
  apart : ∀ c ∈ C, ∀ d ∈ C, c ≠ d → ∀ a, Child h c a → ¬ Child h d a
  twice : ∀ c ∈ C, ∀ node, h c = some node → node.left ≠ node.right

variable {C : Set Nat} {h₁ h₂ : Memory α} {n m : Nat} {l r : TreeNode α} {ql qr : Option Nat}

theorem After.of_eq {D : Set Nat} (hC : After A h C h') (heq : C = D) : After A h D h' := heq ▸ hC

theorem After.start : After A h ∅ h where
  freed _ := fun ⟨_, hc, _⟩ => absurd hc (Set.notMem_empty _)
  collapsed _ _ hc := absurd hc (Set.notMem_empty _)
  kept _ _ _ := rfl
  closed _ hc := absurd hc (Set.notMem_empty _)
  apart _ hc := absurd hc (Set.notMem_empty _)
  twice _ hc := absurd hc (Set.notMem_empty _)

theorem After.not_freed {node : Node α} (hC : After A h C h') (ha : h' a = some node) : ¬ Freed h C a := by
  intro hf
  rw [hC.freed a hf] at ha
  cases ha

theorem root_leaf (value : Values α) : (leaf value).root = some value := by
  cases value <;> rfl

/-- The node of a subtree that has been simplified holds what the root of the simplified tree does. -/
theorem After.root_eq (hC : After A h C h') (hs : Represents h (some a) s) (hf : ¬ Freed h C a)
    (hin : collapsing A h a ⊆ C) : ∃ node, h' a = some node ∧ (simplify A s).1.root = some node.value := by
  by_cases ha : a ∈ C
  · obtain ⟨value, hcollapses, hnode⟩ := hC.collapsed a hf ha
    refine ⟨_, hnode, ?_⟩
    rw [hcollapses.simplify_eq hs]
    exact root_leaf value
  · obtain ⟨node, hnode, hroot⟩ := hs.root_eq
    refine ⟨node, (hC.kept a hf ha).trans hnode, ?_⟩
    rw [root_of_not_collapses hs fun value hv => ha (hin ⟨.refl, value, hv⟩), hroot]

theorem not_collapses_of_leaf (hp : h p = some ⟨value, none, none⟩) (v : Values α) : ¬ Collapses A h p v := by
  rintro ⟨o, l, r, tl, tr, left, right, hp', -⟩
  cases hp.symm.trans hp'

/-- A node whose children are in memory has been transformed. -/
theorem After.transform {l r : Nat} (hC : After A h C h₂) (hp : h p = some ⟨.op_val o, some l, some r⟩)
    (hcollapses : Collapses A h p value) (hpC : p ∉ C) (hfp : ¬ Freed h C p) (hfl : ¬ Freed h C l) (hfr : ¬ Freed h C r)
    (hrl : r ≠ l) (hin : collapsing A h p ⊆ insert p C) (hp' : h' p = some ⟨value, none, none⟩)
    (hl' : h' l = none) (hr' : h' r = none) (hframe : ∀ a, a ≠ p → a ≠ l → a ≠ r → h' a = h₂ a) :
    After A h (insert p C) h' := by
  have hchild : ∀ a, Child h p a ↔ a = l ∨ a = r := by
    intro a
    constructor
    · rintro ⟨node, hnode, ha⟩
      cases hp.symm.trans hnode
      rcases ha with ha | ha
      · exact .inl (Option.some.inj ha).symm
      · exact .inr (Option.some.inj ha).symm
    · rintro (rfl | rfl)
      · exact ⟨_, hp, .inl rfl⟩
      · exact ⟨_, hp, .inr rfl⟩
  have hother : ∀ a, ¬ Freed h (insert p C) a → a ≠ l ∧ a ≠ r ∧ ¬ Freed h C a := by
    intro a ha
    refine ⟨fun heq => ha ⟨p, .inl rfl, (hchild a).2 (.inl heq)⟩, fun heq => ha ⟨p, .inl rfl, (hchild a).2 (.inr heq)⟩, ?_⟩
    rintro ⟨c, hc, hca⟩
    exact ha ⟨c, .inr hc, hca⟩
  refine ⟨?_, ?_, ?_, ?_, ?_, ?_⟩
  · rintro a ⟨c, rfl | hc, hca⟩
    · rcases (hchild a).1 hca with rfl | rfl
      · exact hl'
      · exact hr'
    · have hfa : Freed h C a := ⟨c, hc, hca⟩
      rw [hframe a (fun heq => hfp (heq ▸ hfa)) (fun heq => hfl (heq ▸ hfa)) fun heq => hfr (heq ▸ hfa)]
      exact hC.freed a hfa
  · intro a hfa ha
    obtain ⟨hal, har, hfa⟩ := hother a hfa
    by_cases hap : a = p
    · subst hap
      exact ⟨value, hcollapses, hp'⟩
    · rw [hframe a hap hal har]
      exact hC.collapsed a hfa (ha.resolve_left hap)
  · intro a hfa ha
    obtain ⟨hal, har, hfa⟩ := hother a hfa
    rw [hframe a (fun heq => ha (.inl heq)) hal har]
    exact hC.kept a hfa fun haC => ha (.inr haC)
  · rintro c (rfl | hc)
    · exact hin
    · exact (hC.closed c hc).trans (Set.subset_insert p C)
  · have hapart : ∀ c ∈ C, ∀ a, Child h p a → ¬ Child h c a := by
      intro c hc a hpa hca
      rcases (hchild a).1 hpa with rfl | rfl
      · exact hfl ⟨c, hc, hca⟩
      · exact hfr ⟨c, hc, hca⟩
    rintro c (rfl | hc) d (rfl | hd) hcd a hca hda
    · exact hcd rfl
    · exact hapart d hd a hca hda
    · exact hapart c hc a hda hca
    · exact hC.apart c hc d hd hcd a hca hda
  · rintro c (rfl | hc) node hnode
    · cases hp.symm.trans hnode
      exact fun heq => hrl (Option.some.inj heq).symm
    · exact hC.twice c hc node hnode

/-- The set of transformed nodes after the rules have been tried on the node at `p`. -/
theorem simplifyNode_after (hC : After A h C h₂) (hp : h p = some ⟨.op_val o, ql, qr⟩) (hl : Represents h ql l)
    (hr : Represents h qr r) (hpC : p ∉ C) (hlC : under A h ql ⊆ C) (hrC : under A h qr ⊆ C)
    (hrun : simplifyNode A h₂ p n = some (h', m)) : After A h (C ∪ collapsing A h p) h' := by
  have hstays : (∀ v, ¬ Collapses A h p v) → C = C ∪ collapsing A h p := by
    intro hnot
    refine (Set.union_eq_self_of_subset_right fun c hc => ?_).symm
    rcases (mem_collapsing_of_op hp).1 hc with ⟨-, v, hv⟩ | hc | hc
    · exact absurd hv (hnot v)
    · exact hlC hc
    · exact hrC hc
  cases hnode : h₂ p with
  | none =>
      rw [simplifyNode, hnode] at hrun
      cases hrun
  | some node =>
      have hfp := hC.not_freed hnode
      obtain rfl : node = ⟨.op_val o, ql, qr⟩ := Option.some.inj (hnode.symm.trans ((hC.kept p hfp hpC).trans hp))
      rw [simplifyNode, hnode] at hrun
      cases ql with
      | none =>
          cases hrun
          refine hC.of_eq (hstays ?_)
          rintro v ⟨o, a, b, tl, tr, left, right, hp', -⟩
          cases hp.symm.trans hp'
      | some a =>
          cases qr with
          | none =>
              cases hrun
              refine hC.of_eq (hstays ?_)
              rintro v ⟨o, a, b, tl, tr, left, right, hp', -⟩
              cases hp.symm.trans hp'
          | some b =>
              cases hna : h₂ a with
              | none =>
                  simp only [Option.bind_eq_bind, Option.bind_some, hna, Option.bind_none] at hrun
                  cases hrun
              | some nodeₗ =>
                  cases hnb : h₂ b with
                  | none =>
                      simp only [Option.bind_eq_bind, Option.bind_some, hna, hnb, Option.bind_none] at hrun
                      cases hrun
                  | some nodeᵣ =>
                      have hfa := hC.not_freed hna
                      have hfb := hC.not_freed hnb
                      obtain ⟨_, hna', hrootₗ⟩ := hC.root_eq hl hfa fun c hc => hlC ⟨a, rfl, hc⟩
                      obtain ⟨_, hnb', hrootᵣ⟩ := hC.root_eq hr hfb fun c hc => hrC ⟨b, rfl, hc⟩
                      cases hna.symm.trans hna'
                      cases hnb.symm.trans hnb'
                      simp only [Option.bind_eq_bind, Option.bind_some, hna, hnb] at hrun
                      cases hrw : rewrite A o nodeₗ.value nodeᵣ.value with
                      | none =>
                          simp only [hrw] at hrun
                          cases hrun
                          refine hC.of_eq (hstays ?_)
                          rintro v ⟨o', a', b', tl, tr, left, right, hp', hl', hr', hleft, hright, hv⟩
                          cases hp.symm.trans hp'
                          rw [hl'.unique hl, hrootₗ] at hleft
                          rw [hr'.unique hr, hrootᵣ] at hright
                          cases hleft
                          cases hright
                          rw [hrw] at hv
                          cases hv
                      | some value =>
                          simp only [hrw] at hrun
                          have hcollapses : Collapses A h p value := ⟨o, a, b, l, r, _, _, hp, hl, hr, hrootₗ, hrootᵣ, hrw⟩
                          have htree := Represents.op hp hl hr
                          have hap : a ≠ p := fun heq => htree.not_reaches ⟨_, hp, .inl (congrArg some heq)⟩ .refl
                          have hbp : b ≠ p := fun heq => htree.not_reaches ⟨_, hp, .inr (congrArg some heq)⟩ .refl
                          have hba : b ≠ a := by
                            rintro rfl
                            rw [transformNode_same value hnode rfl rfl] at hrun
                            cases hrun
                          obtain ⟨h₃, hrun₃, hp₃, ha₃, hb₃, hframe₃⟩ :=
                            transformNode_eq value hnode rfl rfl hna hnb hap hbp hba
                          rw [hrun₃] at hrun
                          cases hrun
                          have hin : collapsing A h p ⊆ insert p C := by
                            intro c hc
                            rcases (mem_collapsing_of_op hp).1 hc with ⟨hcp, -⟩ | hc | hc
                            · exact .inl hcp
                            · exact .inr (hlC hc)
                            · exact .inr (hrC hc)
                          refine After.of_eq (hC.transform hp hcollapses hpC hfp hfa hfb hba hin hp₃ ha₃ hb₃ hframe₃) ?_
                          ext c
                          constructor
                          · rintro (rfl | hc)
                            · exact .inr ⟨.refl, value, hcollapses⟩
                            · exact .inl hc
                          · rintro (hc | hc)
                            · exact .inr hc
                            · exact hin hc

/-! ## A call -/

theorem simplifyTree_leaf {depth : Nat} (hp : h p = some ⟨value, none, none⟩) :
    simplifyTree A (depth + 1) h p = some (h, 0) := by
  simp [simplifyTree, simplifyNode, hp]

/-- The steps of a call on an operation. -/
theorem simplifyTree_inv {depth : Nat} (hrun : simplifyTree A (depth + 1) h p = some (h', n)) :
    ∃ node₁ h₁ n₁ node₂ h₂ n₂, h p = some node₁ ∧
      node₁.left.elim (some (h, 0)) (simplifyTree A depth h) = some (h₁, n₁) ∧ h₁ p = some node₂ ∧
      node₂.right.elim (some (h₁, 0)) (simplifyTree A depth h₁) = some (h₂, n₂) ∧
      simplifyNode A h₂ p (n₁ + n₂) = some (h', n) := by
  simp only [simplifyTree, Option.bind_eq_bind, Option.bind_eq_some_iff] at hrun
  obtain ⟨node₁, hnode₁, ⟨h₁, n₁⟩, hrun₁, node₂, hnode₂, ⟨h₂, n₂⟩, hrun₂, hrun⟩ := hrun
  exact ⟨node₁, h₁, n₁, node₂, h₂, n₂, hnode₁, hrun₁, hnode₂, hrun₂, hrun⟩

theorem collapsing_trans (hc : c ∈ collapsing A h a) : collapsing A h c ⊆ collapsing A h a :=
  fun _ hd => ⟨hc.1.trans hd.1, hd.2⟩

theorem under_some : under A h (some a) = collapsing A h a := by
  ext c
  constructor
  · rintro ⟨_, ⟨⟩, hc⟩
    exact hc
  · exact fun hc => ⟨a, rfl, hc⟩

theorem under_none : under A h none = ∅ := by
  ext c
  constructor
  · rintro ⟨_, ⟨⟩, _⟩
  · exact fun hc => absurd hc (Set.notMem_empty _)

theorem collapsing_leaf (hp : h p = some ⟨value, none, none⟩) : collapsing A h p = ∅ := by
  ext c
  rw [mem_collapsing_of_op hp, under_none]
  constructor
  · rintro (⟨-, v, hv⟩ | hc | hc)
    · exact absurd hv (not_collapses_of_leaf hp v)
    · exact hc
    · exact hc
  · exact fun hc => absurd hc (Set.notMem_empty _)

theorem After.leaf_eq (hC : After A h C h₁) (hp : h p = some ⟨value, none, none⟩) (hf : ¬ Freed h C p) :
    h₁ p = some ⟨value, none, none⟩ := by
  refine (hC.kept p hf fun hpC => ?_).trans hp
  obtain ⟨v, hv, -⟩ := hC.collapsed p hf hpC
  exact not_collapses_of_leaf hp v hv

theorem After.leaf (hC : After A h C h₁) (hp : h p = some ⟨value, none, none⟩) {depth : Nat}
    (hrun : simplifyTree A depth h₁ p = some (h', n)) : After A h (C ∪ under A h (some p)) h' := by
  rw [under_some, collapsing_leaf hp, Set.union_empty]
  cases depth with
  | zero => cases hrun
  | succ depth =>
      obtain ⟨node, -, -, -, -, -, hnode, -⟩ := simplifyTree_inv hrun
      rw [simplifyTree_leaf (hC.leaf_eq hp (hC.not_freed hnode))] at hrun
      cases hrun
      exact hC

/-- A call that comes to an end has transformed what is to be transformed under its node. -/
theorem simplifyTree_after {depth : Nat} (hs : Represents h q s) (hC : After A h C h₁)
    (hrun : q.elim (some (h₁, 0)) (simplifyTree A depth h₁) = some (h', n)) : After A h (C ∪ under A h q) h' := by
  induction s generalizing depth q C h₁ h' n with
  | null =>
      cases hs
      cases hrun
      rw [under_none, Set.union_empty]
      exact hC
  | num d =>
      cases hs with
      | num hp => exact hC.leaf hp hrun
  | var name =>
      cases hs with
      | var hp => exact hC.leaf hp hrun
  | op o l r ihl ihr =>
      cases hs with
      | @op p _ ql qr _ _ hp hl hr =>
          rw [under_some]
          cases depth with
          | zero => cases hrun
          | succ depth =>
              have htree := Represents.op hp hl hr
              obtain ⟨node₁, h₂, n₁, node₂, h₃, n₂, hnode₁, hrun₁, hnode₂, hrun₂, hrun₃⟩ := simplifyTree_inv hrun
              have hfp := hC.not_freed hnode₁
              by_cases hpC : p ∈ C
              · -- The node has been transformed before.
                obtain ⟨value, -, hleaf⟩ := hC.collapsed p hfp hpC
                change simplifyTree A (depth + 1) h₁ p = _ at hrun
                rw [simplifyTree_leaf hleaf] at hrun
                cases hrun
                exact hC.of_eq (Set.union_eq_self_of_subset_right (hC.closed p hpC)).symm
              · obtain rfl : node₁ = _ := Option.some.inj (hnode₁.symm.trans ((hC.kept p hfp hpC).trans hp))
                have hC₂ := ihl hl hC hrun₁
                have hp₂ : p ∉ C ∪ under A h ql := by
                  rintro (hin | ⟨a, rfl, hin, -⟩)
                  · exact hpC hin
                  · exact htree.not_reaches ⟨_, hp, .inl rfl⟩ hin
                have hfp₂ := hC₂.not_freed hnode₂
                obtain rfl : node₂ = _ := Option.some.inj (hnode₂.symm.trans ((hC₂.kept p hfp₂ hp₂).trans hp))
                have hC₃ := ihr hr hC₂ hrun₂
                have hp₃ : p ∉ C ∪ under A h ql ∪ under A h qr := by
                  rintro (hin | ⟨a, rfl, hin, -⟩)
                  · exact hp₂ hin
                  · exact htree.not_reaches ⟨_, hp, .inr rfl⟩ hin
                have hC₄ := simplifyNode_after hC₃ hp hl hr hp₃ (fun c hc => .inl (.inr hc)) (fun c hc => .inr hc) hrun₃
                refine hC₄.of_eq ?_
                ext c
                rw [Set.mem_union, Set.mem_union, Set.mem_union, Set.mem_union, mem_collapsing_of_op hp]
                tauto

/-! ## Trees whose nodes are not freed too early -/

/-- No child of a node that is transformed is the child of another node, or twice the child of its own. -/
def Unshared (A : Arith α) (h : Memory α) (p : Nat) : Prop :=
  ∀ a value, Reaches h p a → Collapses A h a value → (∀ node, h a = some node → node.left ≠ node.right) ∧
    ∀ b, Reaches h p b → b ≠ a → ∀ c, Child h a c → ¬ Child h b c

theorem Unshared.not_freed (hu : Unshared A h p) (hC : C ⊆ collapsing A h p) (ha : Reaches h p a) (haC : a ∉ C)
    (hab : Child h a b) : ¬ Freed h C b := by
  rintro ⟨c, hc, hcb⟩
  obtain ⟨hpc, value, hcollapses⟩ := hC hc
  exact (hu c value hpc hcollapses).2 a ha (fun heq => haC (heq ▸ hc)) b hcb hab

/-- Transforming nodes under a child leaves the node alone. -/
theorem Represents.not_freed (hs : Represents h (some a) s) (hq : ∀ b, q = some b → Child h a b) (hf : ¬ Freed h C a) :
    ¬ Freed h (C ∪ under A h q) a := by
  rintro ⟨c, hc | ⟨b, hb, hbc, -⟩, hca⟩
  · exact hf ⟨c, hc, hca⟩
  · exact hs.not_reaches (hq b hb) (hbc.tail hca)

theorem Represents.notMem_under (hs : Represents h (some a) s) (hq : ∀ b, q = some b → Child h a b) (hC : a ∉ C) :
    a ∉ C ∪ under A h q := by
  rintro (hc | ⟨b, hb, hba, -⟩)
  · exact hC hc
  · exact hs.not_reaches (hq b hb) hba

theorem under_subset (ha : Reaches h p a) (hq : ∀ b, q = some b → Child h a b) : under A h q ⊆ collapsing A h p := by
  rintro c ⟨b, hb, hbc, hcollapses⟩
  exact ⟨(ha.tail (hq b hb)).trans hbc, hcollapses⟩

theorem simplifyNode_succeeds (hC : After A h C h₂) (hp : h p = some ⟨.op_val o, ql, qr⟩) (hl : Represents h ql l)
    (hr : Represents h qr r) (hlC : under A h ql ⊆ C) (hrC : under A h qr ⊆ C)
    (hp₂ : h₂ p = some ⟨.op_val o, ql, qr⟩) (hfree : ∀ b, Child h p b → ¬ Freed h C b)
    (htwice : ∀ value, Collapses A h p value → ql ≠ qr) : ∃ r, simplifyNode A h₂ p n = some r := by
  rw [simplifyNode, hp₂]
  cases ql with
  | none => exact ⟨_, rfl⟩
  | some a =>
      cases qr with
      | none => exact ⟨_, rfl⟩
      | some b =>
          have hpa : Child h p a := ⟨_, hp, .inl rfl⟩
          have hpb : Child h p b := ⟨_, hp, .inr rfl⟩
          obtain ⟨nodeₗ, hna, hrootₗ⟩ := hC.root_eq hl (hfree a hpa) fun c hc => hlC ⟨a, rfl, hc⟩
          obtain ⟨nodeᵣ, hnb, hrootᵣ⟩ := hC.root_eq hr (hfree b hpb) fun c hc => hrC ⟨b, rfl, hc⟩
          simp only [Option.bind_eq_bind, Option.bind_some, hna, hnb]
          cases hrw : rewrite A o nodeₗ.value nodeᵣ.value with
          | none => exact ⟨_, rfl⟩
          | some value =>
              have hcollapses : Collapses A h p value := ⟨o, a, b, l, r, _, _, hp, hl, hr, hrootₗ, hrootᵣ, hrw⟩
              have htree := Represents.op hp hl hr
              have hap : a ≠ p := fun heq => htree.not_reaches ⟨_, hp, .inl (congrArg some heq)⟩ .refl
              have hbp : b ≠ p := fun heq => htree.not_reaches ⟨_, hp, .inr (congrArg some heq)⟩ .refl
              have hba : b ≠ a := fun heq => htwice value hcollapses (congrArg some heq.symm)
              obtain ⟨h₃, hrun₃, -⟩ := transformNode_eq value hp₂ rfl rfl hna hnb hap hbp hba
              simp only [hrun₃]
              exact ⟨_, rfl⟩

/-- A call on a tree whose nodes are not freed too early comes to an end. -/
theorem simplifyTree_succeeds {depth : Nat} (hu : Unshared A h p) (hs : Represents h q s) (hd : s.height ≤ depth)
    (hq : ∀ a, q = some a → Reaches h p a ∧ ¬ Freed h C a) (hC : After A h C h₁) (hCp : C ⊆ collapsing A h p) :
    ∃ r, q.elim (some (h₁, 0)) (simplifyTree A depth h₁) = some r := by
  induction s generalizing depth q C h₁ with
  | null =>
      cases hs
      exact ⟨_, rfl⟩
  | num d =>
      cases hs with
      | @num a _ ha =>
          cases depth with
          | zero => cases hd
          | succ depth => exact ⟨_, simplifyTree_leaf (hC.leaf_eq ha (hq a rfl).2)⟩
  | var name =>
      cases hs with
      | @var a _ ha =>
          cases depth with
          | zero => cases hd
          | succ depth => exact ⟨_, simplifyTree_leaf (hC.leaf_eq ha (hq a rfl).2)⟩
  | op o l r ihl ihr =>
      cases hs with
      | @op a _ ql qr _ _ ha hl hr =>
          cases depth with
          | zero => cases hd
          | succ depth =>
              have htree := Represents.op ha hl hr
              obtain ⟨hpa, hfa⟩ := hq a rfl
              rw [height, Nat.add_le_add_iff_right, max_le_iff] at hd
              by_cases haC : a ∈ C
              · obtain ⟨value, -, hleaf⟩ := hC.collapsed a hfa haC
                exact ⟨_, simplifyTree_leaf hleaf⟩
              · have hchildₗ : ∀ b, ql = some b → Child h a b := fun b hb => ⟨_, ha, .inl hb⟩
                have hchildᵣ : ∀ b, qr = some b → Child h a b := fun b hb => ⟨_, ha, .inr hb⟩
                have ha₁ : h₁ a = _ := (hC.kept a hfa haC).trans ha
                obtain ⟨⟨h₂, n₁⟩, hrun₁⟩ := ihl hl hd.1 (fun b hb =>
                  ⟨hpa.tail (hchildₗ b hb), hu.not_freed hCp hpa haC (hchildₗ b hb)⟩) hC hCp
                have hC₂ := simplifyTree_after hl hC hrun₁
                have hCp₂ := Set.union_subset hCp (under_subset (A := A) hpa hchildₗ)
                have haC₂ := htree.notMem_under (A := A) hchildₗ haC
                have hfa₂ := htree.not_freed (A := A) hchildₗ hfa
                have ha₂ : h₂ a = _ := (hC₂.kept a hfa₂ haC₂).trans ha
                obtain ⟨⟨h₃, n₂⟩, hrun₂⟩ := ihr hr hd.2 (fun b hb =>
                  ⟨hpa.tail (hchildᵣ b hb), hu.not_freed hCp₂ hpa haC₂ (hchildᵣ b hb)⟩) hC₂ hCp₂
                have hC₃ := simplifyTree_after hr hC₂ hrun₂
                have hCp₃ := Set.union_subset hCp₂ (under_subset (A := A) hpa hchildᵣ)
                have haC₃ := htree.notMem_under (A := A) hchildᵣ haC₂
                have ha₃ : h₃ a = _ := (hC₃.kept a (htree.not_freed (A := A) hchildᵣ hfa₂) haC₃).trans ha
                obtain ⟨result, hrun₃⟩ := simplifyNode_succeeds (n := n₁ + n₂) hC₃ ha hl hr (fun c hc => .inl (.inr hc))
                  (fun c hc => .inr hc) ha₃ (fun b hb => hu.not_freed hCp₃ hpa haC₃ hb)
                  fun value hvalue => (hu a value hpa hvalue).1 _ ha
                refine ⟨result, ?_⟩
                simp only [Option.elim_some, simplifyTree, ha₁, hrun₁, ha₂, hrun₂, Option.bind_eq_bind, Option.bind_some]
                exact hrun₃

/-- The memory in which all nodes under a pointer have been transformed holds the simplified tree. -/
theorem After.represents (hu : Unshared A h p) (hC : After A h C h₁) (hCp : C ⊆ collapsing A h p) (hs : Represents h q s)
    (hq : ∀ a, q = some a → Reaches h p a ∧ ¬ Freed h C a) (hin : under A h q ⊆ C) :
    Represents h₁ q (simplify A s).1 := by
  induction s generalizing q with
  | null =>
      cases hs
      exact .null
  | num d =>
      cases hs with
      | @num a _ ha => exact .num (hC.leaf_eq ha (hq a rfl).2)
  | var name =>
      cases hs with
      | @var a _ ha => exact .var (hC.leaf_eq ha (hq a rfl).2)
  | op o l r ihl ihr =>
      cases hs with
      | @op a _ ql qr _ _ ha hl hr =>
          obtain ⟨hpa, hfa⟩ := hq a rfl
          have htree := Represents.op ha hl hr
          by_cases haC : a ∈ C
          · obtain ⟨value, hcollapses, hleaf⟩ := hC.collapsed a hfa haC
            rw [hcollapses.simplify_eq htree]
            exact represents_leaf hcollapses.isOp hleaf
          · have hchildₗ : ∀ b, ql = some b → Child h a b := fun b hb => ⟨_, ha, .inl hb⟩
            have hchildᵣ : ∀ b, qr = some b → Child h a b := fun b hb => ⟨_, ha, .inr hb⟩
            have hunder : ∀ c, c ∈ under A h ql ∨ c ∈ under A h qr → c ∈ C := fun c hc =>
              hin ⟨a, rfl, (mem_collapsing_of_op ha).2 (.inr hc)⟩
            rw [simplify_of_not_collapses htree fun value hv => haC (hin ⟨a, rfl, .refl, value, hv⟩)]
            refine .op ((hC.kept a hfa haC).trans ha) (ihl hl (fun b hb => ?_) fun c hc => hunder c (.inl hc))
              (ihr hr (fun b hb => ?_) fun c hc => hunder c (.inr hc))
            · exact ⟨hpa.tail (hchildₗ b hb), hu.not_freed hCp hpa haC (hchildₗ b hb)⟩
            · exact ⟨hpa.tail (hchildᵣ b hb), hu.not_freed hCp hpa haC (hchildᵣ b hb)⟩

/-- A call on a tree whose nodes are not freed too early leaves the simplified tree. -/
theorem simplifyTree_spec {depth : Nat} (hu : Unshared A h p) (hs : Represents h (some p) s) (hd : s.height ≤ depth) :
    ∃ h' n, simplifyTree A depth h p = some (h', n) ∧ Represents h' (some p) (simplify A s).1 := by
  have hstart : ∀ a, some p = some a → Reaches h p a ∧ ¬ Freed h ∅ a := by
    rintro a ⟨⟩
    exact ⟨.refl, fun ⟨_, hc, _⟩ => hc⟩
  obtain ⟨⟨h', n⟩, hrun⟩ := simplifyTree_succeeds hu hs hd hstart (After.start (A := A)) (Set.empty_subset _)
  have hC := simplifyTree_after hs (After.start (A := A)) hrun
  rw [Set.empty_union, under_some] at hC
  refine ⟨h', n, hrun, hC.represents hu subset_rfl hs ?_ under_some.subset⟩
  rintro a ⟨⟩
  refine ⟨.refl, fun ⟨c, hc, hca⟩ => ?_⟩
  obtain ⟨t, ht, -⟩ := hs.reaches hc.1
  exact ht.not_reaches hca hc.1

/-! ## What a call that has left a tree says of the memory -/

/-- Only operations have children. -/
theorem Represents.op_of_child (hs : Represents h (some a) s) (hab : Child h a b) : ∃ o ql qr l r,
    h a = some ⟨.op_val o, ql, qr⟩ ∧ Represents h ql l ∧ Represents h qr r ∧ s = .op o l r ∧ (ql = some b ∨ qr = some b) := by
  obtain ⟨node, hnode, hb⟩ := hab
  cases hs with
  | num hp =>
      cases hp.symm.trans hnode
      rcases hb with hb | hb
      · cases hb
      · cases hb
  | var hp =>
      cases hp.symm.trans hnode
      rcases hb with hb | hb
      · cases hb
      · cases hb
  | op hp hl hr =>
      cases hp.symm.trans hnode
      exact ⟨_, _, _, _, _, hp, hl, hr, rfl, hb⟩

/-- Over an operation that is not transformed nothing is. -/
theorem not_collapses_of_child (hs : Represents h (some b) (.op o l r)) (hb : ∀ value, ¬ Collapses A h b value)
    (hab : Child h a b) (value : Values α) : ¬ Collapses A h a value := by
  rintro ⟨o', x, y, tl, tr, left, right, ha, hl, hr, hleft, hright, hrw⟩
  obtain ⟨hopₗ, hopᵣ, -⟩ := rewrite_isOp hrw
  have hroot := simplify_of_not_collapses hs hb
  obtain ⟨node, hnode, hchild⟩ := hab
  cases ha.symm.trans hnode
  rcases hchild with hx | hy
  · cases hx
    rw [hl.unique hs, hroot] at hleft
    cases hleft
    cases hopₗ
  · cases hy
    rw [hr.unique hs, hroot] at hright
    cases hright
    cases hopᵣ

/-- A node of a tree that is in memory, which has not been transformed, has its children in memory. -/
theorem After.represents_child (hC : After A h C h') (ht : Represents h' (some a) t) (haC : a ∉ C) (hab : Child h a b) :
    ∃ u, Represents h' (some b) u := by
  obtain ⟨node, hnode, -⟩ := ht.root_eq
  have hsame := hC.kept a (hC.not_freed hnode) haC
  obtain ⟨node', hnode', hb⟩ := hab
  obtain ⟨o, ql, qr, l, r, -, hl, hr, -, hb⟩ := ht.op_of_child ⟨node', hsame.trans hnode', hb⟩
  rcases hb with rfl | rfl
  · exact ⟨l, hl⟩
  · exact ⟨r, hr⟩

/-- A node with children that is not transformed is still in memory, when the whole tree is. -/
theorem After.represents_of_reaches (hC : After A h (collapsing A h p) h') (hs : Represents h (some p) s)
    (ht : Represents h' (some p) t) (hb : Reaches h p b) (hbc : Child h b c) (hbC : ∀ value, ¬ Collapses A h b value) :
    ∃ u, Represents h' (some b) u := by
  induction hb generalizing c with
  | refl => exact ⟨t, ht⟩
  | @tail a b hpa hab ih =>
      obtain ⟨u, hu, -⟩ := hs.reaches (hpa.tail hab)
      obtain ⟨o, ql, qr, l, r, -, -, -, rfl, -⟩ := hu.op_of_child hbc
      have haC := not_collapses_of_child hu hbC hab
      obtain ⟨v, hv⟩ := ih hab haC
      exact hC.represents_child hv (fun hin => hin.2.elim haC) hab

/-- A call that leaves a tree has not freed a node too early. -/
theorem unshared_of_simplifyTree {depth : Nat} (hs : Represents h (some p) s)
    (hrun : simplifyTree A depth h p = some (h', n)) (ht : Represents h' (some p) t) : Unshared A h p := by
  have hC := simplifyTree_after hs (After.start (A := A)) hrun
  rw [Set.empty_union, under_some] at hC
  intro a value hpa hvalue
  have ha : a ∈ collapsing A h p := ⟨hpa, value, hvalue⟩
  refine ⟨hC.twice a ha, fun b hpb hba c hac hbc => ?_⟩
  by_cases hb : ∃ v, Collapses A h b v
  · exact hC.apart b ⟨hpb, hb⟩ a ha hba c hbc hac
  · rw [not_exists] at hb
    obtain ⟨u, hu⟩ := hC.represents_of_reaches hs ht hpb hbc hb
    obtain ⟨v, hv⟩ := hC.represents_child hu (fun hin => hin.2.elim hb) hbc
    obtain ⟨node, hnode, -⟩ := hv.root_eq
    exact hC.not_freed hnode ⟨a, ha, hac⟩

end CompilerLab.Derivative
