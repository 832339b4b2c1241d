import CompilerLab.Lib.Dfs
import CompilerLab.Lib.NaturalLoop

/-!
# Postorders

A depth-first search leaves a vertex after the vertices it found from it. An edge to a vertex that is left no earlier
than its source leads back. Something that visits vertices one by one, and puts a vertex off only while the source of
an edge that does not lead back is missing, forgets none.

When the search leaves a vertex, an edge of it leads to a vertex left before or to one on the search's path. So an edge
to a vertex that is left no earlier than its source has its target on the path to the source.
-/

namespace CompilerLab.Lib

section Complete

variable {α : Type*} {E B B' : α → α → Prop} {root : α} {order : List α} {V : α → Prop}

/-- Where a list with one more element at its end can be split. -/
theorem concat_eq_append_cons {l l₁ l₂ : List α} {a b : α} :
    l ++ [a] = l₁ ++ b :: l₂ ↔ (l₁ = l ∧ b = a ∧ l₂ = []) ∨ ∃ l', l₂ = l' ++ [a] ∧ l = l₁ ++ b :: l' := by
  constructor
  · intro h
    rcases List.eq_nil_or_concat l₂ with rfl | ⟨l', c, rfl⟩
    · obtain ⟨hl, ha⟩ := List.append_inj' h rfl
      exact .inl ⟨hl.symm, (List.cons.inj ha).1.symm, rfl⟩
    · rw [List.concat_eq_append, ← List.cons_append, ← List.append_assoc] at h
      obtain ⟨hl, ha⟩ := List.append_inj' h rfl
      exact .inr ⟨l', by rw [List.concat_eq_append, (List.cons.inj ha).1], hl⟩
  · rintro (⟨rfl, rfl, rfl⟩ | ⟨l', rfl, rfl⟩)
    · rfl
    · simp

/-- A search from `root` over the edges `E` has left the vertices in this order; `B` holds of the edges that lead back. -/
structure Postorder (E B : α → α → Prop) (root : α) (order : List α) : Prop where
  found : ∀ l₁ b l₂, order = l₁ ++ b :: l₂ → b ≠ root → ∃ p ∈ l₂, E p b
  back : ∀ l₁ b l₂, order = l₁ ++ b :: l₂ → ∀ p ∈ l₁ ++ [b], E p b → B p b

namespace Postorder

theorem mono (h : Postorder E B root order) (hb : ∀ p b, B p b → B' p b) : Postorder E B' root order where
  found := h.found
  back l₁ b l₂ heq p hp he := hb p b (h.back l₁ b l₂ heq p hp he)

/-- Nothing is missing when every missing vertex that a visited one leads to waits for a missing vertex, on an edge that
does not lead back. -/
theorem complete (h : Postorder E B root order) (hroot : V root)
    (waits : ∀ b ∈ order, ¬ V b → (∃ p ∈ order, E p b ∧ V p) → ∃ p ∈ order, E p b ∧ ¬ V p ∧ ¬ B p b) :
    ∀ b ∈ order, V b := by
  suffices ∀ l₂ l₁, order = l₁ ++ l₂ → ∀ b ∈ l₂, V b from this order [] rfl
  intro l₂
  induction l₂ with
  | nil => exact fun _ _ => List.forall_mem_nil _
  | cons b l₂ ih =>
      intro l₁ heq
      have hlater : ∀ x ∈ l₂, V x := ih (l₁ ++ [b]) (by simp [heq])
      refine List.forall_mem_cons.2 ⟨?_, hlater⟩
      -- the last missing vertex was found from one that has been visited
      by_contra hb
      obtain ⟨p, hp, hpb⟩ := h.found l₁ b l₂ heq fun hbr => hb (hbr ▸ hroot)
      obtain ⟨q, hq, hqb, hqv, hforth⟩ := waits b (by simp [heq]) hb ⟨p, by simp [heq, hp], hpb, hlater p hp⟩
      rw [heq, ← List.singleton_append, ← List.append_assoc, List.mem_append] at hq
      rcases hq with hq | hq
      · exact hforth (h.back l₁ b l₂ heq q hq hqb)
      · exact hqv (hlater q hq)

end Postorder

end Complete

section Returning

open Relation

variable {α : Type*} {E : α → α → Prop} {N : α → List α} {r a b p : α}

/-- `b` is on a path of the search that ends with `p`. -/
def Returns (E : α → α → Prop) (r p b : α) : Prop := ∃ l, OnPath E r (p :: l) ∧ b ∈ p :: l

theorem Returns.dom (h : Returns E r p b) (hr : Reducible E r) (he : E p b) : Dom E r b p := by
  obtain ⟨l, hpath, hb⟩ := h
  exact hpath.back hr he hb

theorem OnPath.leads {l : List α} (h : OnPath E r (p :: l)) (hb : b ∈ p :: l) : ReflTransGen E b p := by
  induction l generalizing p with
  | nil => rw [List.mem_singleton.1 hb]
  | cons q l ih =>
      rcases List.mem_cons.1 hb with rfl | hb
      · exact .refl
      · have hc := h.chain
        rw [List.reverse_cons, List.isChain_append] at hc
        have hlast : q ∈ (q :: l).reverse.getLast? := by simp
        exact (ih h.pop hb).tail (hc.2.2 q hlast p rfl).1

theorem Returns.leads (h : Returns E r p b) : ReflTransGen E b p := by
  obtain ⟨l, hpath, hb⟩ := h
  exact hpath.leads hb

/-- The invariant of a search with the path `F` that has left the vertices of `order`: every edge followed leads to a vertex that
has been left or returns. -/
structure Settled (N : α → List α) (r : α) (F : Dfs.Frames α) (order : List α) : Prop where
  path : OnPath (fun u v => v ∈ N u) r (F.map Prod.fst)
  followed : ∀ f ∈ F, ∀ b ∈ f.2, b ∈ order ∨ Returns (fun u v => v ∈ N u) r f.1 b
  closed : ∀ p ∈ order, ∀ b ∈ N p, b ∈ order ∨ Returns (fun u v => v ∈ N u) r p b
  back : ∀ l₁ b l₂, order = l₁ ++ b :: l₂ → ∀ p ∈ l₁ ++ [b], b ∈ N p → Returns (fun u v => v ∈ N u) r p b

namespace Settled

variable {F : Dfs.Frames α} {order done : List α}

theorem start : Settled N r [] [] := ⟨.nil, by simp, by simp, by simp⟩

theorem enter (h : Settled N r F order) (ha : Dfs.Reached N (· = r) F a) (hnew : a ∉ F.map Prod.fst) :
    Settled N r ((a, []) :: F) order where
  path := by
    cases F with
    | nil =>
        obtain rfl : a = r := ha
        exact ⟨.singleton a, fun x hx => (Option.some.inj hx).symm⟩
    | cons f F =>
        obtain ⟨rest, hN⟩ := ha
        have hN' : N f.1 = f.2 ++ a :: rest := hN
        exact h.path.push (by rw [hN']; simp) hnew
  followed := List.forall_mem_cons.2 ⟨fun b hb => absurd hb List.not_mem_nil, h.followed⟩
  closed := h.closed
  back := h.back

/-- One more edge of the last vertex has been followed. -/
theorem push (h : Settled N r ((a, done) :: F) order) (hb : b ∈ order ∨ b ∈ a :: F.map Prod.fst) :
    Settled N r ((a, done ++ [b]) :: F) order where
  path := h.path
  followed := by
    obtain ⟨hdone, hF⟩ := List.forall_mem_cons.1 h.followed
    refine List.forall_mem_cons.2 ⟨fun c hc => ?_, hF⟩
    rcases List.mem_append.1 hc with hc | hc
    · exact hdone c hc
    · obtain rfl := List.mem_singleton.1 hc
      exact hb.imp_right fun hpath => ⟨F.map Prod.fst, h.path, hpath⟩
  closed := h.closed
  back := h.back

theorem leave (h : Settled N r ((a, N a) :: F) order) (hnew : a ∉ order) : Settled N r F (order ++ [a]) where
  path := h.path.pop
  followed f hf b hb := (h.followed f (List.mem_cons_of_mem _ hf) b hb).imp_left (List.mem_append_left _)
  closed p hp b hb := by
    refine Or.imp_left (List.mem_append_left [a]) ?_
    rcases List.mem_append.1 hp with hp | hp
    · exact h.closed p hp b hb
    · obtain rfl := List.mem_singleton.1 hp
      exact h.followed _ List.mem_cons_self b hb
  back l₁ b l₂ heq p hp he := by
    rcases concat_eq_append_cons.1 heq with ⟨rfl, rfl, rfl⟩ | ⟨l', rfl, hl⟩
    · -- the vertex that is left now has not been left before, so the edges to it return
      rcases List.mem_append.1 hp with hp | hp
      · exact (h.closed p hp b he).resolve_left hnew
      · obtain rfl := List.mem_singleton.1 hp
        exact (h.followed _ List.mem_cons_self p he).resolve_left hnew
    · exact h.back l₁ b l' hl p hp he

end Settled

end Returning

end CompilerLab.Lib
