import CompilerLab.Lib.Dominance

/-!
# Natural loops

An edge back to a dominator closes a loop. The loop of a header is what can be found going back from the sources of such
edges without passing the header; two loops are nested or have no vertex in common.
-/

namespace CompilerLab.Lib

open Relation

variable {α : Type*} {E : α → α → Prop} {r a b c h k s t x : α}

/-- Dominators of one vertex dominate each other. -/
theorem Dom.total (ha : Dom E r a x) (hb : Dom E r b x) (hx : ReflTransGen E r x) : Dom E r a b ∨ Dom E r b a := by
  by_contra hne
  obtain ⟨hab, hba⟩ := not_or.1 hne
  simp only [Dom, Classical.not_imp] at hab hba
  obtain ⟨pb, hba'⟩ := hab
  obtain ⟨pa, hab'⟩ := hba
  -- what can be reached can be reached without leaving one of the two
  have key : ∀ y, ReflTransGen E r y → ReflTransGen (Avoids E a) r y ∨ ReflTransGen (Avoids E b) r y := by
    intro y hy
    induction hy with
    | refl => exact .inl .refl
    | @tail y z _ hyz ih =>
        rcases ih with hy | hy
        · by_cases hya : y = a
          · subst hya
            exact .inr (pa.tail ⟨hyz, hab'⟩)
          · exact .inl (hy.tail ⟨hyz, hya⟩)
        · by_cases hyb : y = b
          · subst hyb
            exact .inl (pb.tail ⟨hyz, hba'⟩)
          · exact .inr (hy.tail ⟨hyz, hyb⟩)
  rcases key x hx with hxa | hxb
  · exact hab' (hb (ha hxa ▸ pa) ▸ ha hxa).symm
  · exact hba' (ha (hb hxb ▸ pb) ▸ hb hxb).symm

/-- An edge to a vertex that dominates its source. -/
structure BackEdge (E : α → α → Prop) (r s h : α) : Prop where
  reachable : ReflTransGen E r s
  edge : E s h
  dom : Dom E r h s

/-- A vertex that some edge leads back to. -/
def Header (E : α → α → Prop) (r h : α) : Prop := ∃ s, BackEdge E r s h

/-- A step back along an edge, to a vertex other than `h`. -/
def BackStep (E : α → α → Prop) (h u v : α) : Prop := E v u ∧ v ≠ h

/-- `x` is in the natural loop of `h`. -/
def InLoop (E : α → α → Prop) (r h x : α) : Prop :=
  Header E r h ∧ (x = h ∨ ∃ s, BackEdge E r s h ∧ s ≠ h ∧ ReflTransGen (BackStep E h) s x)

/-- The loop of `h` is the smallest one `x` is in. -/
def Innermost (E : α → α → Prop) (r h x : α) : Prop := InLoop E r h x ∧ ∀ k, InLoop E r k x → InLoop E r k h

/-- The loop of `h` is the smallest of the loops that `x` is in and that are not its own. -/
structure Closest (E : α → α → Prop) (r h x : α) : Prop where
  ne : h ≠ x
  inLoop : InLoop E r h x
  smallest : ∀ k, k ≠ x → InLoop E r k x → InLoop E r k h

/-- An edge that leads back to no dominator. -/
def Forward (E : α → α → Prop) (r u v : α) : Prop := E u v ∧ ¬ Dom E r v u

/-- Every cycle has an edge back to a dominator. -/
def Reducible (E : α → α → Prop) (r : α) : Prop := ∀ b, ReflTransGen E r b → ¬ TransGen (Forward E r) b b

theorem BackStep.ne (hs : s ≠ h) (hx : ReflTransGen (BackStep E h) s x) : x ≠ h := by
  rcases ReflTransGen.cases_tail hx with rfl | ⟨_, -, hstep⟩
  · exact hs
  · exact hstep.2

/-- From a vertex dominated by `k` one can go back to `k` without passing a strict dominator of `k`. -/
theorem Dom.backSteps (hkx : Dom E r k x) (hhk : Dom E r h k) (hne : h ≠ k) (hx : ReflTransGen E r x) :
    ReflTransGen (BackStep E h) x k := by
  have hh : ¬ Dom E r k h := fun hkh => hne (hhk.antisymm hkh (hkx.reachable hx))
  induction hx with
  | refl => exact hkx .refl ▸ .refl
  | @tail y z _ hyz ih =>
      by_cases hz : z = k
      · exact hz ▸ .refl
      · have hky := hkx.pred hz hyz
        exact .head ⟨hyz, fun hy => hh (hy ▸ hky)⟩ (ih hky)

namespace InLoop

theorem self (h : Header E r k) : InLoop E r k k := ⟨h, .inl rfl⟩

theorem dom (h : InLoop E r k x) : Dom E r k x := by
  obtain ⟨-, rfl | ⟨s, hs, hne, hx⟩⟩ := h
  · exact Dom.refl _ _
  · induction hx with
    | refl => exact hs.dom
    | tail hu huv ih => exact ih.pred (BackStep.ne hne hu) huv.1

theorem antisymm (hk : InLoop E r h k) (hh : InLoop E r k h) (hr : ReflTransGen E r k) : h = k := hk.dom.antisymm hh.dom hr

/-- The loop of a header in a loop is part of it. -/
theorem trans (hk : InLoop E r h k) (hx : InLoop E r k x) (hr : ReflTransGen E r x) : InLoop E r h x := by
  have hrk : ReflTransGen E r k := hx.dom.reachable hr
  obtain ⟨hh, rfl | ⟨s, hs, hsh, hsk⟩⟩ := hk
  · exact hx
  · obtain ⟨hkk, rfl | ⟨t, ht, htk, htx⟩⟩ := hx
    · exact ⟨hh, .inr ⟨s, hs, hsh, hsk⟩⟩
    · have hne : ∀ y, ReflTransGen (BackStep E k) t y → y ≠ h := by
        rintro y hy rfl
        have hky : InLoop E r k y := ⟨hkk, .inr ⟨t, ht, htk, hy⟩⟩
        have hyk : InLoop E r y k := ⟨hh, .inr ⟨s, hs, hsh, hsk⟩⟩
        exact BackStep.ne hsh hsk (hyk.antisymm hky hrk).symm
      have hst : ReflTransGen (BackStep E h) s t := hsk.tail ⟨ht.edge, hne t .refl⟩
      have hsx : ReflTransGen (BackStep E h) s x := by
        clear hr
        induction htx with
        | refl => exact hst
        | @tail u v hu huv ih => exact ih.tail ⟨huv.1, hne v (hu.tail huv)⟩
      exact ⟨hh, .inr ⟨s, hs, hsh, hsx⟩⟩

/-- Of two loops with a common vertex one is part of the other. -/
theorem nested (hh : InLoop E r h x) (hk : InLoop E r k x) (hr : ReflTransGen E r x) : InLoop E r h k ∨ InLoop E r k h := by
  have key : ∀ {h k}, InLoop E r h x → InLoop E r k x → h ≠ k → Dom E r h k → InLoop E r h k := by
    intro h k hh hk hne hhk
    obtain ⟨hH, rfl | ⟨s, hs, hsh, hsx⟩⟩ := hh
    · exact absurd (hhk.antisymm hk.dom (hk.dom.reachable hr)) hne
    · exact ⟨hH, .inr ⟨s, hs, hsh, hsx.trans (hk.dom.backSteps hhk hne hr)⟩⟩
  by_cases hne : h = k
  · exact .inl (hne ▸ self hh.1)
  · rcases hh.dom.total hk.dom hr with hhk | hkh
    · exact .inl (key hh hk hne hhk)
    · exact .inr (key hk hh (Ne.symm hne) hkh)

end InLoop

/-! ## Depth-first search -/

/-- The vertices on a search's path from the root, the last one first, when every new edge is a forward edge. -/
structure OnPath (E : α → α → Prop) (r : α) (l : List α) : Prop where
  chain : l.reverse.IsChain (Forward E r)
  root : ∀ x ∈ l.reverse.head?, x = r

namespace OnPath

variable {l : List α}

theorem nil : OnPath E r [] := ⟨.nil, nofun⟩

theorem reachable (h : OnPath E r l) (hx : x ∈ l) : ReflTransGen E r x := by
  refine h.chain.induction (ReflTransGen E r) _ (fun _ _ he hu => hu.tail he.1) (fun hne => ?_) x (List.mem_reverse.2 hx)
  rw [h.root _ (List.head?_eq_some_head hne)]

/-- The dominators of the last vertex are on the path. -/
theorem mem_of_dom (h : OnPath E r (a :: l)) (hd : Dom E r b a) : b ∈ a :: l := by
  by_cases hab : a = b
  · exact hab ▸ List.mem_cons_self
  · have hc := h.chain.imp fun _ _ he => he.1
    rw [List.reverse_cons] at hc
    obtain ⟨y, hy⟩ : ∃ y, (l.reverse ++ [a]).head? = some y := by cases l.reverse <;> exact ⟨_, rfl⟩
    obtain rfl := h.root y (by rw [List.reverse_cons]; exact hy)
    exact List.mem_cons_of_mem a (List.mem_reverse.1 (hd.mem_of_isChain hc hy hab))

theorem push (h : OnPath E r (a :: l)) (he : E a b) (hb : b ∉ a :: l) : OnPath E r (b :: a :: l) where
  chain := by
    rw [List.reverse_cons]
    refine List.isChain_append.2 ⟨h.chain, .singleton b, fun x hx y hy => ?_⟩
    rw [List.getLast?_reverse] at hx
    obtain rfl := Option.some.inj hx
    obtain rfl := Option.some.inj hy
    exact ⟨he, fun hd => hb (h.mem_of_dom hd)⟩
  root x hx := by
    refine h.root x ?_
    rw [List.reverse_cons, List.head?_append_of_ne_nil _ (by simp)] at hx
    exact hx

theorem pop (h : OnPath E r (a :: l)) : OnPath E r l where
  chain := by
    have hc := h.chain
    rw [List.reverse_cons] at hc
    exact hc.left_of_append
  root x hx := by
    refine h.root x ?_
    rw [List.reverse_cons, List.head?_append, hx]
    rfl

/-- An edge from the last vertex to a vertex on the path is a back edge. -/
theorem back (h : OnPath E r (a :: l)) (hr : Reducible E r) (he : E a b) (hb : b ∈ a :: l) : Dom E r b a := by
  by_contra hd
  have hc := h.chain
  obtain ⟨l₁, l₂, heq⟩ := List.append_of_mem (List.mem_reverse.2 hb)
  have hlast : ∀ hne, (b :: l₂).getLast hne = a := by
    intro hne
    have ha : (a :: l).reverse.getLast? = some a := by simp
    rw [heq, List.getLast?_append, List.getLast?_eq_some_getLast hne] at ha
    exact Option.some.inj ha
  rw [heq] at hc
  have hba := List.relationReflTransGen_of_exists_isChain (b :: l₂) hc.right_of_append (List.cons_ne_nil b l₂)
  rw [hlast, List.head_cons] at hba
  exact hr b (h.reachable hb) (TransGen.tail' hba ⟨he, hd⟩)

end OnPath

end CompilerLab.Lib
