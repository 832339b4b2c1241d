import CompilerLab.Lib.OptionFold
import Mathlib.Data.List.Perm.Subperm
import Mathlib.Logic.Relation

/-!
# Depth-first traversals

A traversal enters a vertex, follows its edges in order and leaves it. Its actions change a state and may stop the
program. What they keep is stated about the vertices that have been entered and not yet left.
-/

namespace CompilerLab.Lib

variable {σ α : Type*}

/-- The actions of a traversal. `again` is run on an edge to a vertex that has been seen, `forth` and `back` before and
after an edge to a new vertex is followed. -/
structure Dfs (σ α : Type*) where
  next : σ → α → List α
  seen : σ → α → Bool
  enter : σ → α → Option σ
  again : σ → α → α → Option σ := fun s _ _ => some s
  forth : σ → α → α → Option σ := fun s _ _ => some s
  back : σ → α → α → Option σ := fun s _ _ => some s
  leave : σ → α → Option σ := fun s _ => some s

namespace Dfs

variable {d : Dfs σ α} {N : α → List α} {s s' : σ} {a b x : α} {n : Nat}

/-- The traversal from `a`, at most `fuel` edges deep. -/
def visit (d : Dfs σ α) : Nat → σ → α → Option σ
  | 0, _, _ => none
  | n + 1, s, a => do
      let s ← d.enter s a
      let s ← (d.next s a).foldlM (fun s b =>
        if d.seen s b then d.again s a b else do d.back (← visit d n (← d.forth s a b) b) a b) s
      d.leave s a

/-! ## The rule for invariants -/

/-- The vertices that have been entered, the last one first, with the edges of each that have been followed. -/
abbrev Frames (α : Type*) := List (α × List α)

/-- The traversal is to enter `a`. -/
def Reached (N : α → List α) (root : α → Prop) : Frames α → α → Prop
  | [], a => root a
  | (p, done) :: _, a => ∃ rest, N p = done ++ a :: rest

/-- `I` holds between the actions, and `J` when a vertex has just been left. Every vertex satisfies `E` when it is entered. -/
structure Rule (d : Dfs σ α) (N : α → List α) (root : α → Prop) (E : α → σ → Prop) (I : Frames α → σ → Prop)
    (J : α → Frames α → σ → Prop) : Prop where
  next : ∀ {F s a}, I ((a, []) :: F) s → d.next s a = N a
  enter : ∀ {F s a s'}, I F s → Reached N root F a → E a s → d.seen s a = false → d.enter s a = some s' →
    I ((a, []) :: F) s'
  again : ∀ {F s a done b rest s'}, I ((a, done) :: F) s → N a = done ++ b :: rest → d.seen s b = true →
    d.again s a b = some s' → I ((a, done ++ [b]) :: F) s'
  forth : ∀ {F s a done b rest s'}, I ((a, done) :: F) s → N a = done ++ b :: rest → d.seen s b = false →
    d.forth s a b = some s' → I ((a, done) :: F) s' ∧ d.seen s' b = false ∧ E b s'
  leave : ∀ {F s a s'}, I ((a, N a) :: F) s → d.leave s a = some s' → J a F s'
  back : ∀ {F s a done b rest s'}, J b ((a, done) :: F) s → N a = done ++ b :: rest → d.back s a b = some s' →
    I ((a, done ++ [b]) :: F) s'

/-- The actions do not stop the program, and the traversal is never more than `bound` vertices deep. -/
structure Progress (d : Dfs σ α) (N : α → List α) (root : α → Prop) (E : α → σ → Prop) (I : Frames α → σ → Prop)
    (J : α → Frames α → σ → Prop) (bound : Nat) : Prop where
  bounded : ∀ {F s}, I F s → F.length ≤ bound
  enter : ∀ {F s a}, I F s → Reached N root F a → E a s → d.seen s a = false → ∃ s', d.enter s a = some s'
  again : ∀ {F s a done b rest}, I ((a, done) :: F) s → N a = done ++ b :: rest → d.seen s b = true →
    ∃ s', d.again s a b = some s'
  forth : ∀ {F s a done b rest}, I ((a, done) :: F) s → N a = done ++ b :: rest → d.seen s b = false →
    ∃ s', d.forth s a b = some s'
  leave : ∀ {F s a}, I ((a, N a) :: F) s → ∃ s', d.leave s a = some s'
  back : ∀ {F s a done b rest}, J b ((a, done) :: F) s → N a = done ++ b :: rest → ∃ s', d.back s a b = some s'

variable {root : α → Prop} {E : α → σ → Prop} {I : Frames α → σ → Prop} {J : α → Frames α → σ → Prop} {F : Frames α}

theorem Rule.visit (h : d.Rule N root E I J) (hI : I F s) (ha : Reached N root F a) (hE : E a s)
    (hs : d.seen s a = false) (hv : d.visit n s a = some s') : J a F s' := by
  induction n generalizing s a F s' with
  | zero => cases hv
  | succ n ih =>
      simp only [Dfs.visit, Option.bind_eq_bind, Option.bind_eq_some_iff] at hv
      obtain ⟨t, ht, u, hu, hleave⟩ := hv
      have hIt := h.enter hI ha hE hs ht
      rw [h.next hIt] at hu
      refine h.leave (foldlM_passed (P := fun done s => I ((a, done) :: F) s) ?_ hIt hu) hleave
      intro done b rest s s' heq hI hf
      cases hb : d.seen s b with
      | true =>
          rw [hb, if_pos rfl] at hf
          exact h.again hI heq hb hf
      | false =>
          rw [hb, if_neg Bool.false_ne_true] at hf
          simp only [Option.bind_eq_some_iff] at hf
          obtain ⟨w, hw, v, hv, hback⟩ := hf
          obtain ⟨hIw, hbw, hEw⟩ := h.forth hI heq hb hw
          exact h.back (ih hIw ⟨rest, heq⟩ hEw hbw hv) heq hback

theorem Rule.visit_total {bound : Nat} (h : d.Rule N root E I J) (hp : d.Progress N root E I J bound)
    (hI : I F s) (ha : Reached N root F a) (hE : E a s) (hs : d.seen s a = false) (hn : bound < n + F.length) :
    ∃ s', d.visit n s a = some s' := by
  induction n generalizing s a F with
  | zero =>
      have := hp.bounded hI
      omega
  | succ n ih =>
      obtain ⟨t, ht⟩ := hp.enter hI ha hE hs
      have hIt := h.enter hI ha hE hs ht
      obtain ⟨u, hu, hIu⟩ : ∃ u, (N a).foldlM (fun s b =>
          if d.seen s b then d.again s a b else do d.back (← d.visit n (← d.forth s a b) b) a b) t = some u ∧
          I ((a, N a) :: F) u := by
        refine foldlM_completes (P := fun done s => I ((a, done) :: F) s) ?_ hIt
        intro done b rest s heq hI
        cases hb : d.seen s b with
        | true =>
            obtain ⟨s', hs'⟩ := hp.again hI heq hb
            exact ⟨s', by rw [if_pos rfl, hs'], h.again hI heq hb hs'⟩
        | false =>
            have hreach : Reached N root ((a, done) :: F) b := ⟨rest, heq⟩
            obtain ⟨w, hw⟩ := hp.forth hI heq hb
            obtain ⟨hIw, hbw, hEw⟩ := h.forth hI heq hb hw
            obtain ⟨v, hv⟩ := ih hIw hreach hEw hbw (by rw [List.length_cons]; omega)
            have hJ := h.visit hIw hreach hEw hbw hv
            obtain ⟨s', hs'⟩ := hp.back hJ heq
            exact ⟨s', by simp [hw, hv, hs'], h.back hJ heq hs'⟩
      obtain ⟨s', hs'⟩ := hp.leave hIu
      refine ⟨s', ?_⟩
      simp only [Option.bind_eq_bind] at hu
      simp only [Dfs.visit, Option.bind_eq_bind, ht, Option.bind_some, h.next hIt, hu, hs']

/-! ## What is seen -/

/-- Entering a vertex marks it, and nothing else changes which vertices are marked. The states of the traversal satisfy
`Q`, and there the edges are those of `N`. -/
structure Marks (d : Dfs σ α) (N : α → List α) (Q : σ → Prop) : Prop where
  next : ∀ {s a}, Q s → d.next s a = N a
  enter : ∀ {s a s'}, Q s → d.enter s a = some s' → Q s' ∧ ∀ x, d.seen s' x = true ↔ x = a ∨ d.seen s x = true
  again : ∀ {s a b s'}, Q s → d.again s a b = some s' → Q s' ∧ ∀ x, d.seen s' x = d.seen s x
  back : ∀ {s a b s'}, Q s → d.back s a b = some s' → Q s' ∧ ∀ x, d.seen s' x = d.seen s x
  forth : ∀ {s a b s'}, Q s → d.forth s a b = some s' → Q s' ∧ ∀ x, d.seen s' x = d.seen s x
  leave : ∀ {s a s'}, Q s → d.seen s a = true → d.leave s a = some s' → Q s' ∧ ∀ x, d.seen s' x = d.seen s x

/-- An edge to a vertex that has not been seen. -/
def White (d : Dfs σ α) (N : α → List α) (s : σ) (u v : α) : Prop := v ∈ N u ∧ d.seen s v = false

/-- What is seen between the actions of a traversal that started with `a` in `s₀`. -/
structure Covers (d : Dfs σ α) (N : α → List α) (Q : σ → Prop) (s₀ : σ) (a : α) (F : Frames α) (s : σ) : Prop where
  keeps : Q s
  before : ∀ x, d.seen s₀ x = true → d.seen s x = true
  white : ∀ x, d.seen s x = true → d.seen s₀ x = true ∨ Relation.ReflTransGen (d.White N s₀) a x
  frame : ∀ p ∈ F, d.seen s p.1 = true ∧ Relation.ReflTransGen (d.White N s₀) a p.1 ∧ ∀ y ∈ p.2, d.seen s y = true
  closed : ∀ x, d.seen s x = true → d.seen s₀ x = false → x ∈ F.map Prod.fst ∨ ∀ y ∈ N x, d.seen s y = true
  nodup : (F.map Prod.fst).Nodup

variable {Q : σ → Prop} {s₀ : σ}

namespace Covers

theorem start (hQ : Q s) : d.Covers N Q s a [] s where
  keeps := hQ
  before _ h := h
  white _ h := .inl h
  frame _ h := absurd h List.not_mem_nil
  closed x h h' := absurd (h.symm.trans h') (by decide)
  nodup := .nil

/-- Actions that mark nothing. -/
theorem congr (h : d.Covers N Q s₀ a F s) (hQ : Q s') (hseen : ∀ y, d.seen s' y = d.seen s y) :
    d.Covers N Q s₀ a F s' where
  keeps := hQ
  before y hy := (hseen y).trans (h.before y hy)
  white y hy := h.white y ((hseen y).symm.trans hy)
  frame := by
    simp only [hseen]
    exact h.frame
  closed := by
    simp only [hseen]
    exact h.closed
  nodup := h.nodup

/-- The last edge of a frame leads to a vertex that is seen. -/
theorem push {done : List α} (h : d.Covers N Q s₀ a ((x, done) :: F) s) (hb : d.seen s b = true) :
    d.Covers N Q s₀ a ((x, done ++ [b]) :: F) s where
  keeps := h.keeps
  before := h.before
  white := h.white
  frame := by
    obtain ⟨hx, hF⟩ := List.forall_mem_cons.1 h.frame
    refine List.forall_mem_cons.2 ⟨⟨hx.1, hx.2.1, ?_⟩, hF⟩
    intro y hy
    rcases List.mem_append.1 hy with hy | hy
    · exact hx.2.2 y hy
    · rwa [List.mem_singleton.1 hy]
  closed := h.closed
  nodup := h.nodup

/-- The last vertex is left with all its edges followed. -/
theorem pop (h : d.Covers N Q s₀ a ((x, N x) :: F) s) : d.Covers N Q s₀ a F s where
  keeps := h.keeps
  before := h.before
  white := h.white
  frame := (List.forall_mem_cons.1 h.frame).2
  closed y hy hy' := by
    rcases h.closed y hy hy' with hmem | hN
    · rcases List.mem_cons.1 hmem with rfl | hmem
      · exact .inr (List.forall_mem_cons.1 h.frame).1.2.2
      · exact .inl hmem
    · exact .inr hN
  nodup := (List.nodup_cons.1 h.nodup).2

theorem reached (h : d.Covers N Q s₀ a F s) (hx : Reached N (· = a) F x) (hs : d.seen s x = false) :
    Relation.ReflTransGen (d.White N s₀) a x := by
  cases F with
  | nil => exact hx ▸ .refl
  | cons p F =>
      obtain ⟨rest, hN⟩ := hx
      refine .tail (h.frame p List.mem_cons_self).2.1 ⟨by simp [hN], ?_⟩
      exact Bool.eq_false_iff.2 fun hx => Bool.false_ne_true (hs.symm.trans (h.before x hx))

/-- The frames are no more than the vertices that can be reached. -/
theorem length_le {U : List α} (h : d.Covers N Q s₀ a F s) (hU : ∀ x, Relation.ReflTransGen (d.White N s₀) a x → x ∈ U) :
    F.length ≤ U.length := by
  have sub : F.map Prod.fst ⊆ U := by
    intro x hx
    obtain ⟨p, hp, rfl⟩ := List.mem_map.1 hx
    exact hU _ (h.frame p hp).2.1
  simpa using (h.nodup.subperm sub).length_le

end Covers

theorem Marks.rule (h : d.Marks N Q) (s₀ : σ) (a : α) : d.Rule N (· = a) (fun _ _ => True) (d.Covers N Q s₀ a)
    (fun x F s => d.Covers N Q s₀ a F s ∧ d.seen s x = true) where
  next hI := h.next hI.keeps
  enter := by
    intro F s x s' hI hx _ hs he
    obtain ⟨hQ, hseen⟩ := h.enter hI.keeps he
    have hwhite := hI.reached hx hs
    have mono : ∀ y, d.seen s y = true → d.seen s' y = true := fun y hy => (hseen y).2 (.inr hy)
    refine ⟨hQ, fun y hy => mono y (hI.before y hy), ?_, ?_, ?_, ?_⟩
    · intro y hy
      rcases (hseen y).1 hy with rfl | hy
      · exact .inr hwhite
      · exact hI.white y hy
    · refine List.forall_mem_cons.2 ⟨⟨(hseen x).2 (.inl rfl), hwhite, fun y hy => absurd hy List.not_mem_nil⟩, ?_⟩
      exact fun p hp => ⟨mono _ (hI.frame p hp).1, (hI.frame p hp).2.1, fun y hy => mono y ((hI.frame p hp).2.2 y hy)⟩
    · intro y hy hy'
      rcases (hseen y).1 hy with rfl | hy
      · exact .inl List.mem_cons_self
      · exact (hI.closed y hy hy').imp (List.mem_cons_of_mem _) fun hN z hz => mono z (hN z hz)
    · refine List.nodup_cons.2 ⟨fun hmem => ?_, hI.nodup⟩
      obtain ⟨p, hp, rfl⟩ := List.mem_map.1 hmem
      exact Bool.false_ne_true (hs.symm.trans (hI.frame p hp).1)
  again := by
    intro F s x done b rest s' hI _ hb hs
    obtain ⟨hQ, hseen⟩ := h.again hI.keeps hs
    exact (hI.push hb).congr hQ hseen
  forth := by
    intro F s x done b rest s' hI _ hb hs
    obtain ⟨hQ, hseen⟩ := h.forth hI.keeps hs
    exact ⟨hI.congr hQ hseen, (hseen b).trans hb, trivial⟩
  leave := by
    intro F s x s' hI hs
    have hx := (List.forall_mem_cons.1 hI.frame).1.1
    obtain ⟨hQ, hseen⟩ := h.leave hI.keeps hx hs
    exact ⟨hI.pop.congr hQ hseen, (hseen x).trans hx⟩
  back := by
    intro F s x done b rest s' hJ _ hs
    obtain ⟨hQ, hseen⟩ := h.back hJ.1.keeps hs
    exact (hJ.1.push hJ.2).congr hQ hseen

/-- A traversal marks what paths through unmarked vertices lead to. -/
theorem Marks.visit (h : d.Marks N Q) (hQ : Q s) (hs : d.seen s a = false) (hv : d.visit n s a = some s') :
    Q s' ∧ ∀ x, d.seen s' x = true ↔ d.seen s x = true ∨ Relation.ReflTransGen (d.White N s) a x := by
  obtain ⟨hc, ha⟩ := (h.rule s a).visit (.start hQ) rfl trivial hs hv
  refine ⟨hc.keeps, fun x => ⟨hc.white x, ?_⟩⟩
  rintro (hx | hx)
  · exact hc.before x hx
  · induction hx with
    | refl => exact ha
    | @tail y z hay hyz ih =>
        have hy : d.seen s y = false := by
          cases hay with
          | refl => exact hs
          | tail _ hw => exact hw.2
        exact ((hc.closed y ih hy).resolve_left (by simp)) z hyz.1

/-- Where the marked vertices are closed under edges they stay so. -/
theorem Marks.visit_closed_on {C : α → Prop} (h : d.Marks N Q) (hQ : Q s) (hs : d.seen s a = false)
    (closed : ∀ x, C x → d.seen s x = true → ∀ y ∈ N x, d.seen s y = true) (hv : d.visit n s a = some s') :
    ∀ x, C x → d.seen s' x = true → ∀ y ∈ N x, d.seen s' y = true := by
  intro x hx hxs y hy
  rw [(h.visit hQ hs hv).2] at hxs ⊢
  cases hys : d.seen s y with
  | true => exact .inl rfl
  | false =>
      rcases hxs with hxs | hxs
      · exact absurd ((closed x hx hxs y hy).symm.trans hys) (by decide)
      · exact .inr (hxs.tail ⟨hy, hys⟩)

/-- When the marked vertices are closed under edges, a traversal adds what its start leads to. -/
theorem Marks.visit_closed (h : d.Marks N Q) (hQ : Q s) (hs : d.seen s a = false)
    (closed : ∀ x, d.seen s x = true → ∀ y ∈ N x, d.seen s y = true) (hv : d.visit n s a = some s') (x : α) :
    d.seen s' x = true ↔ d.seen s x = true ∨ Relation.ReflTransGen (fun u v => v ∈ N u) a x := by
  rw [(h.visit hQ hs hv).2]
  constructor
  · exact Or.imp_right fun hx => hx.lift id fun _ _ hw => hw.1
  · rintro (hx | hx)
    · exact .inl hx
    · induction hx with
      | refl => exact .inr .refl
      | @tail y z _ hyz ih =>
          rcases ih with hy | hy
          · exact .inl (closed y hy z hyz)
          · cases hz : d.seen s z with
            | true => exact .inl rfl
            | false => exact .inr (hy.tail ⟨hyz, hz⟩)

/-- With room for every vertex a traversal whose actions succeed comes to its end. -/
theorem Marks.visit_total {U : List α} (h : d.Marks N Q) (hQ : Q s) (hs : d.seen s a = false)
    (hU : ∀ x, Relation.ReflTransGen (d.White N s) a x → x ∈ U)
    (enter : ∀ s x, Q s → x ∈ U → ∃ s', d.enter s x = some s')
    (again : ∀ s x y, Q s → x ∈ U → y ∈ N x → ∃ s', d.again s x y = some s')
    (forth : ∀ s x y, Q s → x ∈ U → y ∈ N x → ∃ s', d.forth s x y = some s')
    (back : ∀ s x y, Q s → x ∈ U → y ∈ N x → ∃ s', d.back s x y = some s')
    (leave : ∀ s x, Q s → x ∈ U → ∃ s', d.leave s x = some s') (hn : U.length < n) :
    ∃ s', d.visit n s a = some s' := by
  have top : ∀ {F : Frames α} {x done t}, d.Covers N Q s a ((x, done) :: F) t → x ∈ U := fun hI =>
    hU _ (List.forall_mem_cons.1 hI.frame).1.2.1
  refine (h.rule s a).visit_total (F := []) ⟨?_, ?_, ?_, ?_, ?_, ?_⟩ (.start hQ) rfl trivial hs (by simpa using hn)
  · exact fun hI => hI.length_le hU
  · exact fun hI hx _ hs => enter _ _ hI.keeps (hU _ (hI.reached hx hs))
  · exact fun hI hN _ => again _ _ _ hI.keeps (top hI) (by simp [hN])
  · exact fun hI hN _ => forth _ _ _ hI.keeps (top hI) (by simp [hN])
  · exact fun hI => leave _ _ hI.keeps (top hI)
  · exact fun hJ hN => back _ _ _ hJ.1.keeps (top hJ.1) (by simp [hN])

/-- A traversal that acts when it enters a vertex only comes to its end with what its action keeps. -/
theorem Marks.visit_keeps {U : List α} {P : σ → Prop} (h : d.Marks N Q) (hQ : Q s) (hP : P s) (hs : d.seen s a = false)
    (hU : ∀ x, Relation.ReflTransGen (d.White N s) a x → x ∈ U)
    (enter : ∀ t x, Q t → P t → Relation.ReflTransGen (d.White N s) a x → ∃ t', d.enter t x = some t' ∧ P t')
    (again : ∀ t x y, d.again t x y = some t) (forth : ∀ t x y, d.forth t x y = some t)
    (back : ∀ t x y, d.back t x y = some t) (leave : ∀ t x, d.leave t x = some t) (hn : U.length < n) :
    ∃ s', d.visit n s a = some s' ∧ P s' := by
  have rule : d.Rule N (· = a) (fun _ _ => True) (fun F t => d.Covers N Q s a F t ∧ P t)
      fun x F t => (d.Covers N Q s a F t ∧ d.seen t x = true) ∧ P t := by
    refine ⟨fun hI => h.next hI.1.keeps, ?_, ?_, ?_, ?_, ?_⟩
    · rintro F t x t' ⟨hI, ht⟩ hx hE hxs he
      obtain ⟨u, hu, hPu⟩ := enter t x hI.keeps ht (hI.reached hx hxs)
      obtain rfl := Option.some.inj (hu.symm.trans he)
      exact ⟨(h.rule s a).enter hI hx hE hxs he, hPu⟩
    · rintro F t x done b rest t' ⟨hI, ht⟩ hN hb hs'
      obtain rfl := Option.some.inj ((again t x b).symm.trans hs')
      exact ⟨hI.push hb, ht⟩
    · rintro F t x done b rest t' ⟨hI, ht⟩ hN hb hs'
      obtain rfl := Option.some.inj ((forth t x b).symm.trans hs')
      exact ⟨⟨hI, ht⟩, hb, trivial⟩
    · rintro F t x t' ⟨hI, ht⟩ hs'
      obtain rfl := Option.some.inj ((leave t x).symm.trans hs')
      exact ⟨⟨hI.pop, (List.forall_mem_cons.1 hI.frame).1.1⟩, ht⟩
    · rintro F t x done b rest t' ⟨⟨hI, hb⟩, ht⟩ hN hs'
      obtain rfl := Option.some.inj ((back t x b).symm.trans hs')
      exact ⟨hI.push hb, ht⟩
  have progress : d.Progress N (· = a) (fun _ _ => True) (fun F t => d.Covers N Q s a F t ∧ P t)
      (fun x F t => (d.Covers N Q s a F t ∧ d.seen t x = true) ∧ P t) U.length := by
    refine ⟨fun hI => hI.1.length_le hU, ?_, fun _ _ _ => ⟨_, again _ _ _⟩, fun _ _ _ => ⟨_, forth _ _ _⟩,
      fun _ => ⟨_, leave _ _⟩, fun _ _ => ⟨_, back _ _ _⟩⟩
    rintro F t x ⟨hI, ht⟩ hx _ hxs
    obtain ⟨t', ht', -⟩ := enter t x hI.keeps ht (hI.reached hx hxs)
    exact ⟨t', ht'⟩
  have hstart : d.Covers N Q s a [] s ∧ P s := ⟨.start hQ, hP⟩
  obtain ⟨s', hs'⟩ := rule.visit_total progress hstart rfl trivial hs (by simpa using hn)
  exact ⟨s', hs', (rule.visit hstart rfl trivial hs hs').2⟩

end Dfs

end CompilerLab.Lib
