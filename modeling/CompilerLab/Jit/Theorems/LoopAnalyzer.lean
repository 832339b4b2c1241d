import CompilerLab.Jit.Lemmas.LoopTree

/-!
# Results on loop analysis

Each block is given the smallest natural loop it is in. The headers are handled in the order in which the search left
them, the ones of inner loops first.
-/

namespace CompilerLab.Jit.LoopAnalyzer

open CompilerLab.Lib Graph

variable {g g' : Graph} {first b h k l n t : Nat} {own : Nat → Nat} {L V : Nat → Prop}

/-! ## One loop -/

/-- The blocks a loop is made of besides its header. -/
def Body (g : Graph) (first h b : Nat) : Prop := b ∈ g.blocks ∧ b ≠ h ∧ InLoop g.Edge first h b

/-- What the walk back from a source comes to is in the loop. -/
theorem body_of_white {s : Graph × (Nat → Bool)} {u : Nat} (hwc : g.WellConnected first) (hu : BackEdge g.Edge first u h)
    (hne : u ≠ h) (hmark : s.2 h = true)
    (hb : Relation.ReflTransGen ((dfsPopulateLoops t).White (fun b => (g.block b).preds) s) u b) : Body g first h b := by
  suffices hx : b ∈ g.blocks ∧ Relation.ReflTransGen (BackStep g.Edge h) u b from
    ⟨hx.1, BackStep.ne hne hx.2, ⟨u, hu⟩, .inr ⟨u, hu, hne, hx.2⟩⟩
  induction hb with
  | refl => exact ⟨hwc.mem_of_leads hu.reachable, .refl⟩
  | @tail x y _ hxy ih =>
      have hy : y ∈ g.blocks := hwc.pred_mem x ih.1 y hxy.1
      have hyh : y ≠ h := fun hyh => Bool.false_ne_true (hxy.2.symm.trans (hyh ▸ hmark))
      exact ⟨hy, ih.2.tail ⟨(hwc.edges y hy x ih.1).2 hxy.1, hyh⟩⟩

/-- What holds between the walks from the sources of a loop. -/
structure Sweep (g : Graph) (first : Nat) (own : Nat → Nat) (L : Nat → Prop) (n : Nat) (o₀ : Nat → Option Nat) (h : Nat)
    (sources : List Nat) (s : Graph × (Nat → Bool)) : Prop where
  linked : Linked g first own L n s.1
  round : Round o₀ (Body g first h) (own h) (fun b => s.2 b = true) (around g first own s.1)
  header : s.2 h = true
  closed : ∀ x, x ≠ h → s.2 x = true → ∀ y ∈ (g.block x).preds, s.2 y = true
  sources : ∀ u ∈ sources, s.2 u = true

section
variable {o₀ : Nat → Option Nat}

theorem Sweep.populateFrom {s : Graph × (Nat → Bool)} {done : List Nat} {u : Nat} (hwc : g.WellConnected first)
    (hs : Sweep g first own L n o₀ h done s) (hu : BackEdge g.Edge first u h)
    (hL : ∀ l, L l → l = own h ∨ ∃ k, Header g.Edge first k ∧ l = own k)
    (inner : ∀ b c, Body g first h b → Header g.Edge first c → o₀ b = some (own c) → own c ≠ own h → Body g first h c) :
    ∃ s', LoopAnalyzer.populateFrom (own h) s u = some s' ∧ Sweep g first own L n o₀ h (done ++ [u]) s' := by
  have hhead : Header g.Edge first h := ⟨u, hu⟩
  cases hseen : s.2 u with
  | true =>
      refine ⟨s, by simp [LoopAnalyzer.populateFrom, hseen], hs.linked, hs.round, hs.header, hs.closed, fun v hv => ?_⟩
      rcases List.mem_append.1 hv with hv | hv
      · exact hs.sources v hv
      · rwa [List.mem_singleton.1 hv]
  | false =>
      have hne : u ≠ h := fun huh => Bool.false_ne_true (hseen.symm.trans (huh ▸ hs.header))
      have hR : ∀ b, Body g first h b → b ∈ g.blocks ∧ (Header g.Edge first b → own b ≠ own h) := fun b hb =>
        ⟨hb.1, fun hH hbh => hb.2.1 (hs.linked.own_inj hH hhead hbh)⟩
      have hcount : s.1.blockCount = g.blockCount := hs.linked.only.blockCount
      obtain ⟨s', hs', hk, hr⟩ := (dfsPopulateLoops_marks g (own h)).visit_keeps (n := s.1.blockCount + 1) (U := g.blocks)
        (P := fun s => Linked g first own L n s.1 ∧
          Round o₀ (Body g first h) (own h) (fun b => s.2 b = true) (around g first own s.1))
        hs.linked.only ⟨hs.linked, hs.round⟩ hseen (fun x hx => (body_of_white hwc hu hne hs.header hx).1)
        (fun r x _ hP hx => by
          obtain ⟨g'', hg'', hk, hr⟩ := hP.2.populate hP.1 hL (hP.1.ownLoop h hhead).1 hR inner
            (body_of_white hwc hu hne hs.header hx)
          refine ⟨(g'', Function.update r.2 x true), by simp [dfsPopulateLoops, hg''], hk, hr.mono fun y _ hy => ?_⟩
          by_cases hyx : y = x
          · exact .inl hyx
          · exact .inr (by simpa [hyx] using hy))
        (fun _ _ _ => rfl) (fun _ _ _ => rfl) (fun _ _ _ => rfl) (fun _ _ => rfl)
        (by rw [hcount]; exact Nat.lt_succ_of_le hwc.length_le)
      have hmarks := ((dfsPopulateLoops_marks g (own h)).visit hs.linked.only hseen hs').2
      have hbefore : ∀ x, s.2 x = true → s'.2 x = true := fun x hx => (hmarks x).2 (.inl hx)
      refine ⟨s', by simp [LoopAnalyzer.populateFrom, hseen, hs'], hk, hr, hbefore h hs.header, ?_, fun v hv => ?_⟩
      · exact (dfsPopulateLoops_marks g (own h)).visit_closed_on hs.linked.only hseen hs.closed hs'
      · rcases List.mem_append.1 hv with hv | hv
        · exact hbefore v (hs.sources v hv)
        · rw [List.mem_singleton.1 hv]
          exact (hmarks u).2 (.inr .refl)

/-- The walks from all sources come to every block of the loop. -/
theorem Sweep.mark {s : Graph × (Nat → Bool)} {sources : List Nat} (hwc : g.WellConnected first)
    (hs : Sweep g first own L n o₀ h sources s) (hall : ∀ u, BackEdge g.Edge first u h → u ∈ sources)
    (hb : Body g first h b) (hr : g.Leads first b) : s.2 b = true := by
  obtain ⟨-, hbh, -, heq | ⟨u, hu, hne, hub⟩⟩ := hb
  · exact absurd heq hbh
  · induction hub with
    | refl => exact hs.sources u (hall u hu)
    | @tail x y hux hxy ih =>
        have hx : g.Leads first x := hr.tail hxy.1
        have hmem := (hwc.edges y (hwc.mem_of_leads hr) x (hwc.mem_of_leads hx)).1 hxy.1
        have hxh := BackStep.ne hne hux
        exact hs.closed x hxh (ih hx hxh) y hmem

/-- `populateReducibleLoop` gives the blocks of a loop that are in no loop yet to it. -/
theorem populateReducibleLoop_spec (hg : Analyzable g first) (hk : Linked g first own L n g') (hh : Header g.Edge first h)
    (hL : ∀ l, L l → l = own h ∨ ∃ k, Header g.Edge first k ∧ l = own k)
    (inner : ∀ b c, Body g first h b → Header g.Edge first c → around g first own g' b = some (own c) → own c ≠ own h →
      Body g first h c) :
    ∃ g'', populateReducibleLoop g' (own h) = some g'' ∧ Linked g first own L n g'' ∧
      Round (around g first own g') (Body g first h) (own h) (Body g first h) (around g first own g'') := by
  obtain ⟨-, ho⟩ := hk.ownLoop h hh
  have hstart : Sweep g first own L n (around g first own g') h [] (g', Function.update (fun _ => false) h true) := by
    refine ⟨hk, Round.start.mono fun b hb hm => ?_, by simp, fun x hx hm => ?_, by simp⟩
    · exact hb.2.1 (by simpa [Function.update_apply] using hm)
    · exact absurd (by simpa [Function.update_apply] using hm) hx
  obtain ⟨s, hs, hsweep⟩ := foldlM_completes (P := Sweep g first own L n (around g first own g') h)
    (f := populateFrom (own h)) (l := (g'.loop (own h)).backEdges) (fun done u rest s heq hs => by
      have hu := (ho.backEdges u).1 (heq ▸ by simp)
      exact hs.populateFrom hg.connected hu hL inner) hstart
  refine ⟨s.1, by simp [populateReducibleLoop, ho.header, hs], hsweep.linked, hsweep.round.mono fun b hb _ => ?_⟩
  exact hsweep.mark hg.connected (fun u hu => (ho.backEdges u).2 hu) hb (hg.domTree.leads b hb.1)

end

/-! ## All loops -/

/-- The block `b` has been given the loop of the header in `D` that is closest to it. -/
def ClosestIn (g : Graph) (first : Nat) (own : Nat → Nat) (D : List Nat) (b : Nat) (o : Option Nat) : Prop :=
  (o = none ∧ ∀ h ∈ D, h ≠ b → ¬ InLoop g.Edge first h b) ∨
  ∃ h ∈ D, o = some (own h) ∧ h ≠ b ∧ InLoop g.Edge first h b ∧
    ∀ k ∈ D, k ≠ b → InLoop g.Edge first k b → InLoop g.Edge first k h

/-- Of two loops with a common block, the one whose header has been left first is part of the other. -/
theorem inLoop_of_order {D D₁ D₂ : List Nat} (hg : Analyzable g first) (hnodup : D.Nodup)
    (order : ∀ b ∈ g.blocks, ∀ h, Dom g.Edge first h b → h ≠ b → Before D b h) (heq : D = D₁ ++ h :: D₂) (hk : k ∈ D₁)
    (hkb : InLoop g.Edge first k b) (hhb : InLoop g.Edge first h b) (hb : b ∈ g.blocks) : InLoop g.Edge first h k := by
  have hr := hg.domTree.leads b hb
  rcases hhb.nested hkb hr with hin | hin
  · exact hin
  · have hkh : Before D k h := by
      obtain ⟨l₁, l₂, rfl⟩ := List.append_of_mem hk
      exact ⟨l₁, l₂ ++ h :: D₂, by simp [heq], by simp⟩
    by_cases hne : k = h
    · exact absurd (hne ▸ hkh) (Before.not_self hnodup)
    · have hh : h ∈ g.blocks := hg.connected.mem_of_leads (hhb.dom.reachable hr)
      exact absurd hkh ((order h hh k hin.dom hne).asymm hnodup)

theorem ClosestIn.header {D D₁ D₂ : List Nat} {o₀ o : Nat → Option Nat} (hg : Analyzable g first) (hnodup : D.Nodup)
    (order : ∀ b ∈ g.blocks, ∀ h, Dom g.Edge first h b → h ≠ b → Before D b h) (heq : D = D₁ ++ h :: D₂)
    (hr : Round o₀ (Body g first h) (own h) (Body g first h) o) (hb : b ∈ g.blocks)
    (hc : ClosestIn g first own D₁ b (o₀ b)) : ClosestIn g first own (D₁ ++ [h]) b (o b) := by
  rcases hc with ⟨hnone, hout⟩ | ⟨k, hk, hok, hkb, hin, hsmall⟩
  · by_cases hbody : Body g first h b
    · have hob : o b = some (own h) := by
        rcases hr.keep b with ho | ⟨-, -, ho⟩
        · exact absurd (ho.trans hnone) (hr.done b hbody hbody)
        · exact ho
      refine .inr ⟨h, by simp, hob, hbody.2.1.symm, hbody.2.2, fun k hk hkb hin => ?_⟩
      rcases List.mem_append.1 hk with hk | hk
      · exact absurd hin (hout k hk hkb)
      · rw [List.mem_singleton.1 hk]
        exact .self hbody.2.2.1
    · have hob : o b = none := by
        rcases hr.keep b with ho | ⟨-, hbody', -⟩
        · exact ho.trans hnone
        · exact absurd hbody' hbody
      refine .inl ⟨hob, fun k hk hkb hin => ?_⟩
      rcases List.mem_append.1 hk with hk | hk
      · exact hout k hk hkb hin
      · obtain rfl := List.mem_singleton.1 hk
        exact hbody ⟨hb, hkb.symm, hin⟩
  · have hob : o b = some (own k) := by
      rcases hr.keep b with ho | ⟨ho, -, -⟩
      · exact ho.trans hok
      · simp [hok] at ho
    refine .inr ⟨k, List.mem_append_left _ hk, hob, hkb, hin, fun k' hk' hkb' hin' => ?_⟩
    rcases List.mem_append.1 hk' with hk' | hk'
    · exact hsmall k' hk' hkb' hin'
    · obtain rfl := List.mem_singleton.1 hk'
      exact inLoop_of_order hg hnodup order heq hk hin hin' hb

/-- The loops of the headers. -/
def IsOwn (g : Graph) (first : Nat) (own : Nat → Nat) (l : Nat) : Prop := ∃ h, Header g.Edge first h ∧ l = own h

/-- What holds when `populateLoops` has handled the blocks of `D`. -/
structure PopulatedIn (g : Graph) (first : Nat) (own : Nat → Nat) (n : Nat) (D : List Nat) (g' : Graph) : Prop where
  linked : Linked g first own (IsOwn g first own) n g'
  closest : ∀ b ∈ g.blocks, ClosestIn g first own D b (around g first own g' b)

/-- A block that is no header changes nothing. -/
theorem populateLoop_other {D : List Nat} (hp : PopulatedIn g first own n D g') (hb : b ∈ g.blocks)
    (hh : ¬ Header g.Edge first b) : populateLoop g' b = some g' ∧ PopulatedIn g first own n (D ++ [b]) g' := by
  have hnot : ∀ x, ¬ InLoop g.Edge first b x := fun x hx => hh hx.1
  refine ⟨?_, hp.linked, fun x hx => ?_⟩
  · cases hloop : (g'.block b).loop with
    | none => simp [populateLoop, hloop]
    | some l =>
        obtain ⟨k, hk, rfl⟩ := hp.linked.values b hb l ((around_block hh).trans hloop)
        have hkb : k ≠ b := fun hkb => hh (hkb ▸ hk)
        simp [populateLoop, hloop, (hp.linked.ownLoop k hk).2.header, hkb]
  · rcases hp.closest x hx with ⟨hnone, hout⟩ | ⟨k, hk, hok, hkx, hin, hsmall⟩
    · refine .inl ⟨hnone, fun k hk hkx hin => ?_⟩
      rcases List.mem_append.1 hk with hk | hk
      · exact hout k hk hkx hin
      · exact hnot x (List.mem_singleton.1 hk ▸ hin)
    · refine .inr ⟨k, List.mem_append_left _ hk, hok, hkx, hin, fun k' hk' hkx' hin' => ?_⟩
      rcases List.mem_append.1 hk' with hk' | hk'
      · exact hsmall k' hk' hkx' hin'
      · exact absurd (List.mem_singleton.1 hk' ▸ hin') (hnot x)

/-- A header adds the blocks of its loop that are in no smaller one. -/
theorem populateLoop_header {D D₁ D₂ : List Nat} (hg : Analyzable g first) (hnodup : D.Nodup)
    (order : ∀ b ∈ g.blocks, ∀ h, Dom g.Edge first h b → h ≠ b → Before D b h) (heq : D = D₁ ++ h :: D₂)
    (hp : PopulatedIn g first own n D₁ g') (hh : Header g.Edge first h) :
    ∃ g'', populateLoop g' h = some g'' ∧ PopulatedIn g first own n (D₁ ++ [h]) g'' := by
  obtain ⟨-, ho⟩ := hp.linked.ownLoop h hh
  have inner : ∀ b c, Body g first h b → Header g.Edge first c → around g first own g' b = some (own c) →
      own c ≠ own h → Body g first h c := by
    intro b c hb hc hbc hne
    rcases hp.closest b hb.1 with ⟨hnone, -⟩ | ⟨k, hk, hok, -, hin, -⟩
    · simp [hnone] at hbc
    · have hown : own k = own c := Option.some.inj (hok.symm.trans hbc)
      obtain rfl := hp.linked.own_inj hin.1 hc hown
      have hr := hg.domTree.leads b hb.1
      refine ⟨hg.connected.mem_of_leads (hin.dom.reachable hr), fun hkh => hne (by rw [hkh]), ?_⟩
      exact inLoop_of_order hg hnodup order heq hk hin hb.2.2 hb.1
  obtain ⟨g'', hs, hk, hr⟩ := populateReducibleLoop_spec hg hp.linked hh (fun l hl => .inr hl) inner
  refine ⟨g'', ?_, hk, fun b hb => (hp.closest b hb).header hg hnodup order heq hr hb⟩
  simp [populateLoop, ho.block, ho.header, ho.isIrreducible, hs]

theorem populateLoops_spec {D : List Nat} (hg : Analyzable g first) (hnodup : D.Nodup) (hmem : ∀ b ∈ D, b ∈ g.blocks)
    (order : ∀ b ∈ g.blocks, ∀ h, Dom g.Edge first h b → h ≠ b → Before D b h) (hp : PopulatedIn g first own n [] g') :
    ∃ g'', D.foldlM populateLoop g' = some g'' ∧ PopulatedIn g first own n D g'' := by
  refine foldlM_completes (P := PopulatedIn g first own n) (fun done b rest s heq hs => ?_) hp
  by_cases hh : Header g.Edge first b
  · exact populateLoop_header hg hnodup order heq hs hh
  · exact ⟨s, populateLoop_other hs (hmem b (heq ▸ by simp)) hh⟩

/-! ## The root -/

/-- What holds when `buildLoopTree` has handled the blocks of `done`. -/
structure Rooted (g : Graph) (first : Nat) (own : Nat → Nat) (n root : Nat) (o₀ : Nat → Option Nat) (done : List Nat)
    (g' : Graph) : Prop where
  linked : Linked g first own (fun l => IsOwn g first own l ∨ l = root) (n + 1) g'
  header : (g'.loop root).header = none
  isRoot : (g'.loop root).isRoot = true
  outerLoop : (g'.loop root).outerLoop = none
  round : Round o₀ (· ∈ g.blocks) root (· ∈ done) (around g first own g')
  added : ∀ b ∈ g.blocks, (g'.block b).loop = some root → b ∈ done

theorem Rooted.ne {root : Nat} {o₀ : Nat → Option Nat} {done : List Nat} (hr : Rooted g first own n root o₀ done g')
    (hh : Header g.Edge first h) : own h ≠ root := fun heq => by
  have hheader := (hr.linked.ownLoop h hh).2.header
  rw [heq, hr.header] at hheader
  cases hheader

/-- The loop that `buildLoopTree` makes. -/
theorem Rooted.start {D : List Nat} (hg : Analyzable g first) (hp : PopulatedIn g first own n D g') :
    Rooted g first own n g'.loopCount (around g first own g') [] (g'.newLoop n none false true).1 := by
  obtain ⟨g'', hg''⟩ : ∃ g'', g'' = (g'.newLoop n none false true).1 := ⟨_, rfl⟩
  have hnew : g''.loop g'.loopCount =
      { id := n, header := none, isIrreducible := false, isRoot := true } := by
    rw [hg'']
    exact Function.update_self ..
  have hold : ∀ l, l ≠ g'.loopCount → g''.loop l = g'.loop l := fun l hl => by
    rw [hg'']
    exact Function.update_of_ne hl ..
  have hblock : g''.block = g'.block := by rw [hg'']; rfl
  have hcount : g''.loopCount = g'.loopCount + 1 := by rw [hg'']; rfl
  have hlt : ∀ l, IsOwn g first own l → l ≠ g'.loopCount := fun l hl => (hp.linked.bounds l hl).2.1.ne
  have hown : ∀ h, Header g.Edge first h → g''.loop (own h) = g'.loop (own h) := fun h hh => hold _ (hlt _ ⟨h, hh, rfl⟩)
  have haround : around g first own g'' = around g first own g' := by
    funext b
    by_cases hb : Header g.Edge first b
    · rw [around_header hb, around_header hb, hown b hb]
    · rw [around_block hb, around_block hb, hblock]
  have hfree : ∀ b ∈ g.blocks, (g''.block b).loop ≠ some g'.loopCount := by
    intro b hb hloop
    rw [hblock] at hloop
    by_cases hh : Header g.Edge first b
    · exact hlt _ ⟨b, hh, rfl⟩ (Option.some.inj ((hp.linked.ownLoop b hh).2.block.symm.trans hloop))
    · exact hlt _ (hp.linked.values b hb _ ((around_block hh).trans hloop)) rfl
  have honly : LoopsOnly g' g'' := hg'' ▸ .newLoop ..
  rw [← hg'']
  have hn := hp.linked.count
  refine ⟨⟨hp.linked.only.trans honly, by omega, fun h hh => ?_, ?_, ?_, fun b hb l hl => ?_⟩, by rw [hnew], by rw [hnew], by rw [hnew],
    haround ▸ Round.start.mono (by simp), fun b hb hloop => absurd hloop (hfree b hb)⟩
  · obtain ⟨hL, ho⟩ := hp.linked.ownLoop h hh
    refine ⟨.inl hL, ?_⟩
    exact ⟨by rw [hblock, ho.block], by rw [hown h hh, ho.header], by rw [hown h hh, ho.isIrreducible],
      by rw [hown h hh, ho.isRoot], by rw [hown h hh]; exact ho.nodup, by rw [hown h hh]; exact ho.backEdges⟩
  · rintro l (hl | rfl)
    · obtain ⟨h₁, h₂, h₃⟩ := hp.linked.bounds l hl
      exact ⟨h₁, by omega, by rw [hold l h₂.ne, h₃]⟩
    · exact ⟨by omega, by omega, by rw [hnew, hn, Nat.add_sub_cancel_left]⟩
  · rintro l (hl | rfl)
    · obtain ⟨h₁, h₂, h₃, h₄⟩ := hp.linked.links l hl
      have hl' := hold l (hlt l hl)
      refine ⟨by rwa [hl'], by rwa [hl', hblock], by rwa [hl'], fun i => ?_⟩
      rw [hl', h₄]
      constructor
      · rintro ⟨h, hh, rfl, ho⟩
        exact ⟨h, hh, rfl, by rw [hown h hh, ho]⟩
      · rintro ⟨h, hh, rfl, ho⟩
        exact ⟨h, hh, rfl, by rw [← hown h hh, ho]⟩
    · refine ⟨by simp [hnew], fun b => ?_, by simp [hnew], fun i => ?_⟩
      · rw [hnew]
        exact ⟨fun hb => absurd hb (by simp), fun hb => absurd hb.2 (hfree b hb.1)⟩
      · rw [hnew]
        refine ⟨fun hi => absurd hi (by simp), ?_⟩
        rintro ⟨h, hh, rfl, ho⟩
        rw [hown h hh] at ho
        have hH : h ∈ g.blocks := mem_of_header hg.connected hh
        exact absurd rfl (hlt _ (hp.linked.values h hH _ ((around_header hh).trans ho)))
  · rw [haround] at hl
    exact .inl (hp.linked.values b hb l hl)

section
variable {root : Nat} {o₀ : Nat → Option Nat} {done : List Nat}

/-- For a block it has not seen, `buildLoopTree` does what is done when a block of a loop is come to. -/
theorem Rooted.addToRoot_eq (hr : Rooted g first own n root o₀ done g') (hb : b ∈ g.blocks) (hnew : b ∉ done) :
    addToRoot root g' b = populate root g' b := by
  rw [addToRoot, populate]
  cases hloop : (g'.block b).loop with
  | none => rfl
  | some l =>
      have hl : IsOwn g first own l ∨ l = root := by
        by_cases hh : Header g.Edge first b
        · exact .inl ⟨b, hh, Option.some.inj (hloop.symm.trans (hr.linked.ownLoop b hh).2.block)⟩
        · exact hr.linked.values b hb l ((around_block hh).trans hloop)
      have hne : l ≠ root := fun hlr => hnew (hr.added b hb (hlr ▸ hloop))
      have hid : (g'.loop l).id ≠ (g'.loop root).id := fun hid => hne (hr.linked.id_inj hl (.inr rfl) hid)
      simp [hid]

theorem Rooted.addToRoot (hg : Analyzable g first) (hr : Rooted g first own n root o₀ done g') (hb : b ∈ g.blocks)
    (hnew : b ∉ done) : ∃ g'', addToRoot root g' b = some g'' ∧ Rooted g first own n root o₀ (done ++ [b]) g'' := by
  have hL : ∀ l, IsOwn g first own l ∨ l = root → l = root ∨ ∃ k, Header g.Edge first k ∧ l = own k := fun l hl => hl.symm
  obtain ⟨g'', hs, hk, hround⟩ := hr.round.populate hr.linked hL (.inr rfl) (fun b hb => ⟨hb, fun hh => hr.ne hh⟩)
    (fun _ c _ hc _ _ => mem_of_header hg.connected hc) hb
  obtain ⟨⟨blocks, loops, hroot⟩, hother⟩ := populate_frame hs
  refine ⟨g'', (hr.addToRoot_eq hb hnew).trans hs, hk, ?_, ?_, ?_, hround.mono fun x _ hx => ?_, fun x hx hloop => ?_⟩
  · rw [hroot, hr.header]
  · rw [hroot, hr.isRoot]
  · rw [hroot, hr.outerLoop]
  · simpa [or_comm] using hx
  · by_cases hxb : x = b
    · simp [hxb]
    · rw [hother x hxb] at hloop
      exact List.mem_append_left _ (hr.added x hx hloop)

theorem buildLoopTree_spec {D loops : List Nat} (hg : Analyzable g first) (hnodup : D.Nodup)
    (hmem : ∀ b, b ∈ D ↔ b ∈ g.blocks) (hp : PopulatedIn g first own loops.length D g') : ∃ g'',
      buildLoopTree g' loops D = some { g'' with loopTreeRoot := some g'.loopCount } ∧
      Rooted g first own loops.length g'.loopCount (around g first own g') D g'' := by
  obtain ⟨g'', hs, hr⟩ := foldlM_completes (P := Rooted g first own loops.length g'.loopCount (around g first own g'))
    (f := LoopAnalyzer.addToRoot g'.loopCount) (l := D) (fun done b rest s heq hs => by
      have hnew : b ∉ done := fun hb => (List.nodup_append.1 (heq ▸ hnodup)).2.2 b hb b List.mem_cons_self rfl
      exact hs.addToRoot hg ((hmem b).1 (heq ▸ by simp)) hnew) (.start hg hp)
  refine ⟨g'', ?_, hr⟩
  have hroot : (g'.newLoop loops.length none false true).2 = g'.loopCount := rfl
  simp only [buildLoopTree, hroot, hs, Option.bind_eq_bind, Option.bind_some, Option.pure_def]

end

/-! ## The loop tree -/

/-- The natural loops of `g` as `g'` stores them: `loopOf h` is the loop of the header `h`, every block has the smallest
loop it is in, and the links between the loops are those of containment. -/
structure LoopTree (g : Graph) (first root : Nat) (loopOf : Nat → Nat) (g' : Graph) : Prop where
  loopTreeRoot : g'.loopTreeRoot = some root
  rootLoop : (g'.loop root).header = none ∧ (g'.loop root).isRoot = true ∧ (g'.loop root).outerLoop = none
  headers : ∀ h, Header g.Edge first h → HeaderLoop g first g' h (loopOf h)
  blocks : ∀ b ∈ g.blocks, (∃ h, Innermost g.Edge first h b ∧ (g'.block b).loop = some (loopOf h)) ∨
    (∀ h, ¬ InLoop g.Edge first h b) ∧ (g'.block b).loop = some root
  outer : ∀ h, Header g.Edge first h →
    (∃ k, Closest g.Edge first k h ∧ (g'.loop (loopOf h)).outerLoop = some (loopOf k)) ∨
    (∀ k, k ≠ h → ¬ InLoop g.Edge first k h) ∧ (g'.loop (loopOf h)).outerLoop = some root
  links : ∀ l, IsOwn g first loopOf l ∨ l = root → Links g first loopOf g' l

/-- What all blocks together have been given. -/
theorem Rooted.around {root : Nat} {o₀ : Nat → Option Nat} {D : List Nat} {o : Option Nat} (hg : Analyzable g first)
    (hmem : ∀ b, b ∈ D ↔ b ∈ g.blocks) (hr : Rooted g first own n root o₀ D g')
    (hc : ∀ b ∈ g.blocks, ClosestIn g first own D b (o₀ b)) (hb : b ∈ g.blocks) (ho : around g first own g' b = o) :
    (∃ k, Closest g.Edge first k b ∧ o = some (own k)) ∨ (∀ k, k ≠ b → ¬ InLoop g.Edge first k b) ∧ o = some root := by
  have hD : ∀ k, InLoop g.Edge first k b → k ∈ D := fun k hk =>
    (hmem k).2 (hg.connected.mem_of_leads (hk.dom.reachable (hg.domTree.leads b hb)))
  subst ho
  rcases hc b hb with ⟨hnone, hout⟩ | ⟨k, -, hok, hkb, hin, hsmall⟩
  · refine .inr ⟨fun k hk hin => hout k (hD k hin) hk hin, ?_⟩
    rcases hr.round.keep b with ho | ⟨-, -, ho⟩
    · exact absurd (ho.trans hnone) (hr.round.done b ((hmem b).2 hb) hb)
    · exact ho
  · refine .inl ⟨k, ⟨hkb, hin, fun k' hk' hin' => hsmall k' (hD k' hin') hk' hin'⟩, ?_⟩
    rcases hr.round.keep b with ho | ⟨ho, -, -⟩
    · exact ho.trans hok
    · simp [hok] at ho

theorem Rooted.loopTree {root : Nat} {o₀ : Nat → Option Nat} {D : List Nat} (hg : Analyzable g first)
    (hmem : ∀ b, b ∈ D ↔ b ∈ g.blocks) (hr : Rooted g first own n root o₀ D g')
    (hc : ∀ b ∈ g.blocks, ClosestIn g first own D b (o₀ b)) :
    LoopTree g first root own { g' with loopTreeRoot := some root } where
  loopTreeRoot := rfl
  rootLoop := ⟨hr.header, hr.isRoot, hr.outerLoop⟩
  headers h hh := by
    obtain ⟨-, ho⟩ := hr.linked.ownLoop h hh
    exact ⟨ho.block, ho.header, ho.isIrreducible, ho.isRoot, ho.nodup, ho.backEdges⟩
  blocks b hb := by
    by_cases hh : Header g.Edge first b
    · exact .inl ⟨b, ⟨.self hh, fun _ hk => hk⟩, (hr.linked.ownLoop b hh).2.block⟩
    · have hne : ∀ k, InLoop g.Edge first k b → k ≠ b := fun k hk hkb => hh (hkb ▸ hk.1)
      rcases hr.around hg hmem hc hb (around_block hh) with ⟨k, hk, hloop⟩ | ⟨hout, hloop⟩
      · exact .inl ⟨k, ⟨hk.inLoop, fun k' hk' => hk.smallest k' (hne k' hk') hk'⟩, hloop⟩
      · exact .inr ⟨fun k hk => hout k (hne k hk) hk, hloop⟩
  outer h hh := hr.around hg hmem hc (mem_of_header hg.connected hh) (around_header hh)
  links l hl := by
    obtain ⟨h₁, h₂, h₃, h₄⟩ := hr.linked.links l hl
    exact ⟨h₁, h₂, h₃, h₄⟩

/-- The loops the search has found are those of the headers, and no other block is in a loop yet. -/
theorem Searched.populated {s : State} (hg : Analyzable g first) (hs : Searched g first s) :
    ∃ own, PopulatedIn g first own s.loops.length [] s.graph := by
  have hloop : ∀ h, ∃ l, Header g.Edge first h → ∃ sources,
      OwnLoop g s.graph h sources l ∧ sources.Nodup ∧ ∀ u, u ∈ sources ↔ BackEdge g.Edge first u h := by
    intro h
    by_cases hh : Header g.Edge first h
    · obtain ⟨l, sources, ho⟩ := hs.found.recorded h hh
      exact ⟨l, fun _ => ⟨sources, ho⟩⟩
    · exact ⟨0, fun hH => absurd hH hh⟩
  choose own hown using hloop
  have hnone : ∀ b ∈ g.blocks, around g first own s.graph b = none := by
    intro b hb
    by_cases hh : Header g.Edge first b
    · obtain ⟨sources, ho, -⟩ := hown b hh
      rw [around_header hh, ho.loop]
    · rw [around_block hh, hs.found.without b fun u hu => hh ⟨u, hu⟩, hg.loops b hb]
  refine ⟨own, ⟨hs.found.only, ?_, fun h hh => ?_, ?_, ?_, fun b hb l hl => ?_⟩, fun b hb => .inl ⟨hnone b hb, by simp⟩⟩
  · rw [← hs.found.loops, Nat.add_comm]
  · obtain ⟨sources, ho, hnodup, hmem⟩ := hown h hh
    exact ⟨⟨h, hh, rfl⟩, ho.block, by rw [ho.loop], by rw [ho.loop], by rw [ho.loop], by rwa [ho.loop], by rwa [ho.loop]⟩
  · rintro l ⟨h, hh, rfl⟩
    obtain ⟨sources, ho, -⟩ := hown h hh
    exact ⟨ho.ge, ho.lt, by rw [ho.loop]⟩
  · rintro l ⟨h, hh, rfl⟩
    obtain ⟨sources, ho, -⟩ := hown h hh
    refine ⟨by simp [ho.loop], fun b => ?_, by simp [ho.loop], fun i => ?_⟩
    · rw [ho.loop, List.mem_singleton]
      constructor
      · rintro rfl
        exact ⟨mem_of_header hg.connected hh, ho.block⟩
      · rintro ⟨hb, hloop⟩
        by_cases hH : Header g.Edge first b
        · obtain ⟨sources', ho', -⟩ := hown b hH
          have heq : own b = own h := Option.some.inj (ho'.block.symm.trans hloop)
          by_contra hne
          exact ho.ne ho' hne heq
        · rw [hs.found.without b fun u hu => hH ⟨u, hu⟩, hg.loops b hb] at hloop
          cases hloop
    · rw [ho.loop]
      refine ⟨fun hi => absurd hi (by simp), ?_⟩
      rintro ⟨k, hk, rfl, hout⟩
      obtain ⟨sources', ho', -⟩ := hown k hk
      simp [ho'.loop] at hout
  · simp [hnone b hb] at hl

theorem analyze_spec (hg : Analyzable g first) : ∃ g' root loopOf, analyze g = some g' ∧ LoopTree g first root loopOf g' := by
  obtain ⟨s, hs, hsearch⟩ := collectBackEdges_spec hg
  obtain ⟨own, hp⟩ := hsearch.populated hg
  obtain ⟨g₁, hg₁, hp₁⟩ := populateLoops_spec hg hsearch.nodup (fun b hb => (hsearch.mem b).1 hb) hsearch.order hp
  obtain ⟨g₂, hg₂, hr⟩ := buildLoopTree_spec hg hsearch.nodup hsearch.mem hp₁
  refine ⟨{ g₂ with loopTreeRoot := some g₁.loopCount }, g₁.loopCount, own, ?_, hr.loopTree hg hsearch.mem hp₁.closest⟩
  simp only [analyze, hs, hg₁, hg₂, Option.bind_eq_bind, Option.bind_some]

/-- The loops of a graph depend on its blocks and edges. -/
theorem LoopTree.congr {g₁ : Graph} {root : Nat} {loopOf : Nat → Nat} (hE : g₁.Edge = g.Edge) (hb : g₁.blocks = g.blocks)
    (ht : LoopTree g₁ first root loopOf g') : LoopTree g first root loopOf g' where
  loopTreeRoot := ht.loopTreeRoot
  rootLoop := ht.rootLoop
  headers h hh := by
    obtain ⟨h₁, h₂, h₃, h₄, h₅, h₆⟩ := ht.headers h (hE ▸ hh)
    exact ⟨h₁, h₂, h₃, h₄, h₅, hE ▸ h₆⟩
  blocks := hE ▸ hb ▸ ht.blocks
  outer := hE ▸ ht.outer
  links l hl := by
    obtain ⟨h₁, h₂, h₃, h₄⟩ := ht.links l (hl.imp_left fun ⟨h, hh, ho⟩ => ⟨h, hE ▸ hh, ho⟩)
    exact ⟨h₁, hb ▸ h₂, h₃, hE ▸ h₄⟩

/-- Dominators are no part of what is asked of a graph before it is analysed. -/
theorem Loopless.analyzable {g₁ : Graph} {buildDomTree : Graph → Option Graph} (hg : Loopless g first)
    (hdom : g.CorrectDominators buildDomTree first g₁) : Analyzable g₁ first ∧ g₁.Edge = g.Edge ∧ g₁.blocks = g.blocks := by
  have hblocks : g₁.blocks = g.blocks := by
    rw [hdom.graph]
    rfl
  have hsuccs : ∀ b, (g₁.block b).succs = (g.block b).succs := fun b => by rw [hdom.block]
  have hpreds : ∀ b, (g₁.block b).preds = (g.block b).preds := fun b => by rw [hdom.block]
  have hloop : ∀ b, (g₁.block b).loop = (g.block b).loop := fun b => by rw [hdom.block]
  have hE : g₁.Edge = g.Edge := by
    funext u v
    rw [Edge, Edge, hsuccs]
  have hwc : g₁.WellConnected first := hg.connected.congr (by rw [hdom.graph]) (by rw [hdom.graph]) (by rw [hdom.graph])
    (by rw [hdom.graph]) hsuccs hpreds
  refine ⟨⟨⟨hwc, ?_, hE ▸ hg.reducible, ?_⟩, hdom.domTree⟩, hE, hblocks⟩
  · simpa only [hblocks, hsuccs] using hg.succs
  · simpa only [hblocks, hloop] using hg.loops

/-- Loop analysis of a reducible graph finds its natural loops. -/
theorem loop_analysis_finds_loops {g₁ : Graph} {buildDomTree : Graph → Option Graph} (hg : Loopless g first)
    (hdom : g.CorrectDominators buildDomTree first g₁) :
    ∃ g' root loopOf, run buildDomTree g = some g' ∧ LoopTree g first root loopOf g' := by
  obtain ⟨hg₁, hE, hblocks⟩ := hg.analyzable hdom
  obtain ⟨g', root, loopOf, hs, ht⟩ := analyze_spec hg₁
  refine ⟨g', root, loopOf, ?_, ht.congr hE hblocks⟩
  simp [run, hg.connected.isEmpty, hdom.run, hs]

/-- A loop with a loop of one block inside. -/
def nestedLoops : Graph :=
  { Graph.ofLists []
      [{ id := 0, succs := [1], dominated := [1] },
       { id := 1, preds := [0, 2], succs := [2, 3], dominator := some 0, dominated := [2, 3] },
       { id := 2, preds := [1, 2], succs := [2, 1], dominator := some 1 },
       { id := 3, preds := [1], dominator := some 1 }] [] with
    valid := fun a => a == .DOM_TREE }

theorem nestedLoops_edges {u v : Nat} : nestedLoops.Edge u v ↔
    u = 0 ∧ v = 1 ∨ u = 1 ∧ (v = 2 ∨ v = 3) ∨ u = 2 ∧ (v = 2 ∨ v = 1) := by
  by_cases hu : u < 4
  · rcases (by omega : u = 0 ∨ u = 1 ∨ u = 2 ∨ u = 3) with rfl | rfl | rfl | rfl <;> simp [Edge, nestedLoops, Graph.ofLists]
  · have hb : nestedLoops.block u = {} := List.getD_eq_default _ _ (Nat.le_of_not_lt hu)
    simp only [Edge, hb, List.not_mem_nil, false_iff]
    omega

/-- Without leaving 1 one gets to 0 and 1. -/
theorem nestedLoops_dom {b : Nat} (hb : b ≠ 0) : Dom nestedLoops.Edge 0 1 b := by
  intro h
  suffices hx : b = 0 ∨ b = 1 from hx.resolve_left hb
  clear hb
  induction h with
  | refl => exact .inl rfl
  | tail _ huv ih =>
      obtain ⟨he, hne⟩ := huv
      rw [nestedLoops_edges] at he
      omega

theorem nestedLoops_domTree : nestedLoops.DomTree 0 := by
  have hb : nestedLoops.blocks = [0, 1, 2, 3] := by decide
  have e01 : nestedLoops.Edge 0 1 := nestedLoops_edges.2 (by decide)
  have e12 : nestedLoops.Edge 1 2 := nestedLoops_edges.2 (by decide)
  have e13 : nestedLoops.Edge 1 3 := nestedLoops_edges.2 (by decide)
  have h1 : IDom nestedLoops.Edge 0 0 1 := ⟨.root 0 1, by decide, fun _ hx hne => hx.pred hne.symm e01⟩
  have h2 : IDom nestedLoops.Edge 0 1 2 := ⟨nestedLoops_dom (by decide), by decide, fun _ hx hne => hx.pred hne.symm e12⟩
  have h3 : IDom nestedLoops.Edge 0 1 3 := ⟨nestedLoops_dom (by decide), by decide, fun _ hx hne => hx.pred hne.symm e13⟩
  refine .of_stored (leads_of_lt (by decide)) rfl ?_ (by decide) (by decide)
  rw [hb]
  simpa using ⟨⟨0, rfl, h1⟩, ⟨1, rfl, h2⟩, ⟨1, rfl, h3⟩⟩

theorem nestedLoops_loopless : Loopless nestedLoops 0 where
  connected := by
    refine ⟨rfl, ?_, ?_, rfl, ?_, ?_, ?_, ?_⟩ <;> decide
  succs := by decide
  reducible b _ hcycle := by
    have up : ∀ u v, Forward nestedLoops.Edge 0 u v → u < v := by
      rintro u v ⟨he, hd⟩
      rcases nestedLoops_edges.1 he with ⟨rfl, rfl⟩ | ⟨rfl, rfl | rfl⟩ | ⟨rfl, rfl | rfl⟩
      · decide
      · decide
      · decide
      · exact absurd (.refl 0 2) hd
      · exact absurd (nestedLoops_dom (by decide)) hd
    have lt : ∀ c, Relation.TransGen (Forward nestedLoops.Edge 0) b c → b < c := by
      intro c hc
      induction hc with
      | single he => exact up b _ he
      | tail _ he ih => exact ih.trans (up _ _ he)
    exact (lt b hcycle).false
  loops := by decide

theorem loop_analysis_finds_loops_nested :
    ∃ g' root loopOf, run (fun _ => none) nestedLoops = some g' ∧ LoopTree nestedLoops 0 root loopOf g' :=
  loop_analysis_finds_loops nestedLoops_loopless ⟨rfl, rfl, fun _ => rfl, nestedLoops_domTree⟩

end CompilerLab.Jit.LoopAnalyzer
