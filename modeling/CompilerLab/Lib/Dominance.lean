import Mathlib.Data.List.Chain
import Mathlib.Logic.Relation
import Mathlib.Tactic.Common

/-!
# Dominance

Vertex `a` dominates `b` when no path from the root leads to `b` without leaving `a`. The graph is a relation; nothing
is asked of vertices that cannot be reached.
-/

namespace CompilerLab.Lib

open Relation

variable {α : Type*} {E E' : α → α → Prop} {r a b c d : α}

/-- An edge that does not leave `a`. -/
def Avoids (E : α → α → Prop) (a u v : α) : Prop := E u v ∧ u ≠ a

/-- Every path from `r` to `b` goes through `a`. -/
def Dom (E : α → α → Prop) (r a b : α) : Prop := ReflTransGen (Avoids E a) r b → b = a

/-- The closest strict dominator. -/
structure IDom (E : α → α → Prop) (r a b : α) : Prop where
  dom : Dom E r a b
  ne : a ≠ b
  closest : ∀ x, Dom E r x b → x ≠ b → Dom E r x a

theorem of_avoids (h : ReflTransGen (Avoids E a) b c) : ReflTransGen E b c := h.lift id fun _ _ he => he.1

/-- A path to `b` either avoids `a` or has a part that leads to `a` before. -/
theorem avoids_or (h : ReflTransGen E r b) : ReflTransGen (Avoids E a) r b ∨ ReflTransGen (Avoids E a) r a := by
  induction h with
  | refl => exact .inl .refl
  | @tail u v _ huv ih =>
      rcases ih with hu | hu
      · by_cases hua : u = a
        · exact .inr (hua ▸ hu)
        · exact .inl (hu.tail ⟨huv, hua⟩)
      · exact .inr hu

namespace Dom

theorem refl (r a : α) : Dom E r a a := fun _ => rfl

theorem root (r b : α) : Dom E r r b := fun h => by
  rcases ReflTransGen.cases_head h with rfl | ⟨_, hr, -⟩
  · rfl
  · exact absurd rfl hr.2

theorem trans (hab : Dom E r a b) (hbc : Dom E r b c) : Dom E r a c := by
  intro h
  -- the path to `c` that avoids `a` avoids `b` as well
  have key : ∀ x, ReflTransGen (Avoids E a) r x → ReflTransGen (Avoids E b) r x ∨ b = a := by
    intro x hx
    induction hx with
    | refl => exact .inl .refl
    | @tail u v hu huv ih =>
        refine ih.imp_left fun hu' => ?_
        by_cases hub : u = b
        · exact absurd (hub.trans (hab (hub ▸ hu))) huv.2
        · exact hu'.tail ⟨huv.1, hub⟩
  rcases key c h with hc | hba
  · have hcb := hbc hc
    exact hcb.trans (hab (hcb ▸ h))
  · exact hba ▸ hbc (hba ▸ h)

/-- A dominator of `b` other than `b` dominates its predecessors. -/
theorem pred (h : Dom E r d b) (hne : b ≠ d) (he : E c b) : Dom E r d c := by
  intro hc
  by_contra hcd
  exact hne (h (hc.tail ⟨he, hcd⟩))

/-- What dominates all predecessors of a vertex dominates the vertex. -/
theorem of_preds (hr : b ≠ r) (h : ∀ c, E c b → Dom E r d c) : Dom E r d b := by
  intro hb
  rcases ReflTransGen.cases_tail hb with rfl | ⟨c, hc, he⟩
  · exact absurd rfl hr
  · exact absurd (h c he.1 hc) he.2

theorem reachable (h : Dom E r a b) (hb : ReflTransGen E r b) : ReflTransGen E r a := by
  rcases avoids_or (a := a) hb with hb' | ha
  · exact h hb' ▸ hb
  · exact of_avoids ha

theorem antisymm (hab : Dom E r a b) (hba : Dom E r b a) (hb : ReflTransGen E r b) : a = b := by
  rcases avoids_or (a := a) hb with h | h
  · exact (hab h).symm
  · rcases avoids_or (a := b) h with h' | h'
    · exact hba (h'.lift id fun _ _ he => ⟨he.1.1, he.2⟩)
    · exact (hab (h'.lift id fun _ _ he => he.1)).symm

/-- Fewer edges have more dominators. -/
theorem mono (h : Dom E r a b) (hE : ∀ u v, E' u v → E u v) : Dom E' r a b := fun hb =>
  h (hb.lift id fun _ _ he => ⟨hE _ _ he.1, he.2⟩)

/-- Dominance depends on the edges between vertices that can be reached. -/
theorem congr (hE : ∀ u v, ReflTransGen E r u → (E u v ↔ E' u v)) : Dom E r a b ↔ Dom E' r a b := by
  have forth : ∀ x, ReflTransGen (Avoids E a) r x → ReflTransGen (Avoids E' a) r x := by
    intro x hx
    induction hx with
    | refl => exact .refl
    | tail hu huv ih => exact ih.tail ⟨(hE _ _ (of_avoids hu)).1 huv.1, huv.2⟩
  have back : ∀ x, ReflTransGen (Avoids E' a) r x → ReflTransGen (Avoids E a) r x := by
    intro x hx
    induction hx with
    | refl => exact .refl
    | tail _ huv ih => exact ih.tail ⟨(hE _ _ (of_avoids ih)).2 huv.1, huv.2⟩
  exact ⟨fun h hb => h (back b hb), fun h hb => h (forth b hb)⟩

/-- What passes from a strict dominator to the vertex it dominates holds of every vertex that can be reached. -/
theorem induct {P : α → Prop} (hr : P r)
    (step : ∀ b, ReflTransGen E r b → b ≠ r → ∃ a, Dom E r a b ∧ a ≠ b ∧ (P a → P b)) (hb : ReflTransGen E r b) :
    P b := by
  -- along a path, for all dominators of its last vertex at once
  have key : ∀ d, Dom E r d b → P d := by
    induction hb with
    | refl => exact fun d hd => hd .refl ▸ hr
    | @tail u v hu huv ih =>
        intro d hd
        by_cases hvd : v = d
        · subst hvd
          by_cases hvr : v = r
          · exact hvr ▸ hr
          · obtain ⟨a, hav, hne, hP⟩ := step v (hu.tail huv) hvr
            exact hP (ih a (hav.pred hne.symm huv))
        · exact ih d (hd.pred hvd huv)
  exact key b (refl r b)

end Dom

namespace IDom

theorem unique (h : IDom E r a b) (h' : IDom E r c b) (hb : ReflTransGen E r b) : a = c :=
  (h'.closest a h.dom h.ne).antisymm (h.closest c h'.dom h'.ne) (h'.dom.reachable hb)

theorem of_only_pred (hab : E a b) (hp : ∀ u, E u b → u = a) (hne : a ≠ b) (hr : b ≠ r) : IDom E r a b where
  dom := Dom.of_preds hr fun u hu => by rw [hp u hu]; exact Dom.refl r a
  ne := hne
  closest _ hx hxb := hx.pred hxb.symm hab

/-- The vertex where two arms meet. -/
theorem of_arms {u v : α} (hu : E a u) (hv : E a v) (huv : u ≠ v) (hub : E u b) (hvb : E v b)
    (hp : ∀ w, E w b → w = u ∨ w = v) (hdu : Dom E r a u) (hdv : Dom E r a v) (hne : a ≠ b) (hr : b ≠ r) :
    IDom E r a b where
  dom := Dom.of_preds hr fun w hw => (hp w hw).elim (· ▸ hdu) (· ▸ hdv)
  ne := hne
  closest x hx hxb := by
    by_cases hxu : x = u
    · exact (hx.pred hxb.symm hvb).pred (fun h => huv (hxu.symm.trans h.symm)) hv
    · exact (hx.pred hxb.symm hub).pred (Ne.symm hxu) hu

/-- An immediate dominator stays one when no vertex is dominated by more than before. -/
theorem mono (h : IDom E r a b) (hE : ∀ u v, E' u v → E u v) (hD : ∀ x, Dom E' r x b → Dom E r x b) :
    IDom E' r a b where
  dom := h.dom.mono hE
  ne := h.ne
  closest x hx hne := (h.closest x (hD x hx) hne).mono hE

end IDom

/-! ## Paths as lists -/

/-- A path that does not leave `a` before its end avoids `a`. -/
theorem avoids_of_isChain {l : List α} {s : α} (h : (l ++ [b]).IsChain E) (hs : (l ++ [b]).head? = some s) (ha : a ∉ l) :
    ReflTransGen (Avoids E a) s b := by
  induction l generalizing s with
  | nil =>
      obtain rfl := Option.some.inj hs
      exact .refl
  | cons v l ih =>
      obtain rfl := Option.some.inj hs
      obtain ⟨w, hw⟩ : ∃ w, (l ++ [b]).head? = some w := by cases l <;> exact ⟨_, rfl⟩
      rw [List.cons_append, List.isChain_cons] at h
      refine .head ⟨h.1 w hw, fun hva => ha (hva ▸ List.mem_cons_self)⟩ (ih h.2 hw fun hl => ha (List.mem_cons_of_mem v hl))

/-- A path from the root to `b` meets the dominators of `b`. -/
theorem Dom.mem_of_isChain {l : List α} (hd : Dom E r a b) (h : (l ++ [b]).IsChain E) (hr : (l ++ [b]).head? = some r)
    (hne : b ≠ a) : a ∈ l := by
  by_contra ha
  exact hne (hd (avoids_of_isChain h hr ha))

/-- A path from a strict dominator of `b` to a vertex `b` dominates meets `b`. -/
theorem Dom.between {l : List α} (hcb : Dom E r c b) (hne : c ≠ b) (hc : ReflTransGen E r c) (hbd : Dom E r b d)
    (h : (c :: l ++ [d]).IsChain E) (hdb : d ≠ b) : b ∈ l := by
  by_contra hb
  have hpath : ReflTransGen (Avoids E b) r c := by
    by_contra hpath
    exact hne (Dom.antisymm (fun h => absurd h hpath) hcb hc).symm
  have hrest : ReflTransGen (Avoids E b) c d := avoids_of_isChain h rfl fun hm =>
    (List.mem_cons.1 hm).elim (fun hbc => hne hbc.symm) hb
  exact hdb (hbd (hpath.trans hrest))

/-- What immediate dominators that serve two graphs say of their dominators. -/
theorem Dom.of_idoms (i : α → α)
    (hi : ∀ b, ReflTransGen E' r b → b ≠ r → IDom E r (i b) b ∧ IDom E' r (i b) b) (hb : ReflTransGen E' r b) :
    ∀ x, Dom E' r x b → Dom E r x b := by
  refine Dom.induct (P := fun b => ∀ x, Dom E' r x b → Dom E r x b) ?_ ?_ hb
  · exact fun x hx => hx .refl ▸ Dom.refl r r
  · intro b hb hbr
    obtain ⟨h, h'⟩ := hi b hb hbr
    refine ⟨i b, h'.dom, h'.ne, fun ih x hx => ?_⟩
    by_cases hxb : x = b
    · exact hxb ▸ Dom.refl r x
    · exact (ih x (h'.closest x hx hxb)).trans h.dom

end CompilerLab.Lib
