import CompilerLab.Jit.Lemmas.LoopSearch

/-!
# Links between loops

Coming to a block in a loop adds the block, or the outermost loop it is in so far, to the loop.
-/

namespace CompilerLab.Jit.LoopAnalyzer

open CompilerLab.Lib Graph

variable {g g' : Graph} {first b c h l n t : Nat} {own : Nat → Nat} {L : Nat → Prop}

/-- `l` is the loop object of the header `h`. -/
structure HeaderLoop (g : Graph) (first : Nat) (g' : Graph) (h l : Nat) : Prop where
  block : (g'.block h).loop = some l
  header : (g'.loop l).header = some h
  isIrreducible : (g'.loop l).isIrreducible = false
  isRoot : (g'.loop l).isRoot = false
  nodup : (g'.loop l).backEdges.Nodup
  backEdges : ∀ u, u ∈ (g'.loop l).backEdges ↔ BackEdge g.Edge first u h

/-- The loop `l` lists the blocks and the loops that refer to it. -/
structure Links (g : Graph) (first : Nat) (own : Nat → Nat) (g' : Graph) (l : Nat) : Prop where
  basicNodup : (g'.loop l).basicBlocks.Nodup
  basicBlocks : ∀ b, b ∈ (g'.loop l).basicBlocks ↔ b ∈ g.blocks ∧ (g'.block b).loop = some l
  innerNodup : (g'.loop l).innerLoops.Nodup
  innerLoops : ∀ i, i ∈ (g'.loop l).innerLoops ↔ ∃ h, Header g.Edge first h ∧ i = own h ∧ (g'.loop i).outerLoop = some l

open Classical in
/-- The loop right around a block; around a header, the one its own loop is in. -/
noncomputable def around (g : Graph) (first : Nat) (own : Nat → Nat) (g' : Graph) (b : Nat) : Option Nat :=
  if Header g.Edge first b then (g'.loop (own b)).outerLoop else (g'.block b).loop

/-- The graph `g` with `n` more loops; the loops `L` are among them, and those of the headers are in `L`. -/
structure Linked (g : Graph) (first : Nat) (own : Nat → Nat) (L : Nat → Prop) (n : Nat) (g' : Graph) : Prop where
  only : LoopsOnly g g'
  count : g'.loopCount = g.loopCount + n
  ownLoop : ∀ h, Header g.Edge first h → L (own h) ∧ HeaderLoop g first g' h (own h)
  bounds : ∀ l, L l → g.loopCount ≤ l ∧ l < g'.loopCount ∧ (g'.loop l).id = l - g.loopCount
  links : ∀ l, L l → Links g first own g' l
  values : ∀ b ∈ g.blocks, ∀ l, around g first own g' b = some l → L l

theorem around_header (hb : Header g.Edge first b) : around g first own g' b = (g'.loop (own b)).outerLoop := if_pos hb

theorem around_block (hb : ¬ Header g.Edge first b) : around g first own g' b = (g'.block b).loop := if_neg hb

theorem mem_of_header (hwc : g.WellConnected first) (hh : Header g.Edge first h) : h ∈ g.blocks := by
  obtain ⟨u, hu⟩ := hh
  exact hwc.mem_of_leads (hu.dom.reachable hu.reachable)

namespace Linked

/-- A header's loop determines the header. -/
theorem own_inj (hk : Linked g first own L n g') (hb : Header g.Edge first b) (hc : Header g.Edge first c)
    (h : own b = own c) : b = c := by
  have hheader := (hk.ownLoop b hb).2.header
  rw [h, (hk.ownLoop c hc).2.header] at hheader
  exact (Option.some.inj hheader).symm

/-- Two loops have the same number only when they are the same. -/
theorem id_inj (hk : Linked g first own L n g') (hl : L l) (ht : L t) (h : (g'.loop l).id = (g'.loop t).id) : l = t := by
  obtain ⟨hl₁, -, hl₂⟩ := hk.bounds l hl
  obtain ⟨ht₁, -, ht₂⟩ := hk.bounds t ht
  omega

theorem values_update (hk : Linked g first own L n g') (ht : L t) {g'' : Graph}
    (h : around g first own g'' = Function.update (around g first own g') c (some t)) (hb : b ∈ g.blocks)
    (hl : around g first own g'' b = some l) : L l := by
  rw [h] at hl
  by_cases hbc : b = c
  · subst hbc
    rw [Function.update_self] at hl
    exact Option.some.inj hl ▸ ht
  · rw [Function.update_of_ne hbc] at hl
    exact hk.values b hb l hl

/-- A block that is in no loop is added to one. -/
theorem addBlock (hk : Linked g first own L n g') (hc : c ∈ g.blocks) (hh : ¬ Header g.Edge first c)
    (hnone : (g'.block c).loop = none) (ht : L t) : ∃ g'', g'.loopAddBasicBlock t c = some g'' ∧
      Linked g first own L n g'' ∧ around g first own g'' = Function.update (around g first own g') c (some t) := by
  have hnot : c ∉ (g'.loop t).basicBlocks := fun hm => by
    simpa [hnone] using (((hk.links t ht).basicBlocks c).1 hm).2
  have hadd := loopAddBasicBlock_eq hnone hnot
  obtain ⟨g'', hg''⟩ : ∃ g'', g'' = (g'.modifyBlock c fun x => { x with loop := some t }).modifyLoop t fun x =>
    { x with basicBlocks := x.basicBlocks ++ [c] } := ⟨_, rfl⟩
  rw [← hg''] at hadd
  have hblock : ∀ b, (g''.block b).loop = if b = c then some t else (g'.block b).loop := fun b => by
    by_cases hb : b = c <;> simp [hg'', hb]
  have hloop : ∀ l, g''.loop l = { g'.loop l with
      basicBlocks := if l = t then (g'.loop l).basicBlocks ++ [c] else (g'.loop l).basicBlocks } := fun l => by
    rw [hg'', addBasicBlock_loop]
  have haround : around g first own g'' = Function.update (around g first own g') c (some t) := by
    funext b
    by_cases hb : b = c
    · subst hb
      simp [around_block hh, hblock]
    · simp [around, hblock, hloop, hb]
  have hcount : g''.loopCount = g'.loopCount := by rw [hg'']; rfl
  refine ⟨g'', hadd, ⟨hk.only.trans (.loopAddBasicBlock hadd), hcount.trans hk.count, fun h hH => ?_, fun l hl => ?_, fun l hl => ?_,
    fun b hb l hl => ?_⟩, haround⟩
  · obtain ⟨hL, ho⟩ := hk.ownLoop h hH
    have hhc : h ≠ c := fun hhc => hh (hhc ▸ hH)
    exact ⟨hL, by simp [hblock, hhc, ho.block], by simp [hloop, ho.header], by simp [hloop, ho.isIrreducible],
      by simp [hloop, ho.isRoot], by simp [hloop, ho.nodup], by simp [hloop, ho.backEdges]⟩
  · rw [hcount, hloop]
    exact hk.bounds l hl
  · obtain ⟨hbn, hb, hin, hi⟩ := hk.links l hl
    refine ⟨?_, fun b => ?_, by simp [hloop, hin], by simp [hloop, hi]⟩
    · by_cases hlt : l = t
      · subst hlt
        simp only [hloop, if_true]
        exact List.nodup_append.2 ⟨hbn, List.nodup_singleton c, fun x hx y hy hxy =>
          hnot (List.mem_singleton.1 hy ▸ hxy ▸ hx)⟩
      · simp [hloop, hlt, hbn]
    · by_cases hlt : l = t
      · subst hlt
        by_cases hbc : b = c
        · simp [hloop, hblock, hbc, hc]
        · simp [hloop, hblock, hbc, hb]
      · by_cases hbc : b = c
        · subst hbc
          simp [hloop, hblock, hlt, Ne.symm hlt, hb, hnone]
        · simp [hloop, hblock, hlt, hbc, hb]
  · exact hk.values_update ht haround hb hl

/-- A loop that is in no other is added to one. -/
theorem addLoop (hk : Linked g first own L n g') (hh : Header g.Edge first c) (hnone : (g'.loop (own c)).outerLoop = none)
    (hct : own c ≠ t) (ht : L t) : ∃ g'', (g'.setOuterLoop (own c) t).addInnerLoop t (own c) = some g'' ∧
      Linked g first own L n g'' ∧ around g first own g'' = Function.update (around g first own g') c (some t) := by
  have hnot : own c ∉ (g'.loop t).innerLoops := fun hm => by
    obtain ⟨k, -, -, ho⟩ := ((hk.links t ht).innerLoops _).1 hm
    simp [hnone] at ho
  have hset : ((g'.setOuterLoop (own c) t).loop t) = g'.loop t := modifyLoop_loop_ne hct.symm
  have hadd : (g'.setOuterLoop (own c) t).addInnerLoop t (own c) = some _ := addInnerLoop_eq (by rw [hset]; exact hnot)
  obtain ⟨g'', hg''⟩ : ∃ g'', g'' = (g'.setOuterLoop (own c) t).modifyLoop t fun x =>
    { x with innerLoops := x.innerLoops ++ [own c] } := ⟨_, rfl⟩
  rw [← hg''] at hadd
  have hblock : g''.block = g'.block := by rw [hg'']; rfl
  have hloop : ∀ l, g''.loop l = { g'.loop l with
      outerLoop := if l = own c then some t else (g'.loop l).outerLoop
      innerLoops := if l = t then (g'.loop l).innerLoops ++ [own c] else (g'.loop l).innerLoops } := fun l => by
    rw [hg'', addInnerLoop_loop]
  have haround : around g first own g'' = Function.update (around g first own g') c (some t) := by
    funext b
    by_cases hb : b = c
    · subst hb
      simp [around_header hh, hloop]
    · by_cases hH : Header g.Edge first b
      · have hne : own b ≠ own c := fun hbc => hb (hk.own_inj hH hh hbc)
        simp [around, hH, hloop, hb, hne]
      · simp [around, hH, hblock, hb]
  have hcount : g''.loopCount = g'.loopCount := by rw [hg'']; rfl
  refine ⟨g'', hadd, ⟨?_, hcount.trans hk.count, fun h hH => ?_, fun l hl => ?_, fun l hl => ?_, fun b hb l hl => ?_⟩, haround⟩
  · have honly : LoopsOnly g' (g'.setOuterLoop (own c) t) := .modifyLoop _
    exact hk.only.trans (honly.trans (hg'' ▸ .modifyLoop _))
  · obtain ⟨hL, ho⟩ := hk.ownLoop h hH
    exact ⟨hL, by simp [hblock, ho.block], by simp [hloop, ho.header], by simp [hloop, ho.isIrreducible],
      by simp [hloop, ho.isRoot], by simp [hloop, ho.nodup], by simp [hloop, ho.backEdges]⟩
  · rw [hcount, hloop]
    exact hk.bounds l hl
  · obtain ⟨hbn, hb, hin, hi⟩ := hk.links l hl
    refine ⟨by simp [hloop, hbn], by simp [hloop, hblock, hb], ?_, fun i => ?_⟩
    · by_cases hlt : l = t
      · subst hlt
        simp only [hloop, if_true]
        exact List.nodup_append.2 ⟨hin, List.nodup_singleton _, fun x hx y hy hxy =>
          hnot (List.mem_singleton.1 hy ▸ hxy ▸ hx)⟩
      · simp [hloop, hlt, hin]
    · by_cases hic : i = own c
      · subst hic
        by_cases hlt : l = t
        · subst hlt
          simpa [hloop] using ⟨c, hh, rfl⟩
        · simp [hloop, hlt, Ne.symm hlt, hi, hnone]
      · by_cases hlt : l = t
        · subst hlt
          simp [hloop, hic, hi]
        · simp [hloop, hic, hlt, hi]
  · exact hk.values_update ht haround hb hl

/-! ## A block that is come to -/

/-- The loop of a block is added to another loop unless it is in one. -/
theorem populate_loop (hk : Linked g first own L n g') (hc : Header g.Edge first c) (hloop : (g'.block b).loop = some (own c))
    (hct : own c ≠ t) (ht : L t) : ∃ g'', populate t g' b = some g'' ∧ Linked g first own L n g'' ∧
      around g first own g'' c ≠ none ∧ (around g first own g'' = around g first own g' ∨
        around g first own g' c = none ∧ around g first own g'' = Function.update (around g first own g') c (some t)) := by
  have hid : (g'.loop (own c)).id ≠ (g'.loop t).id := fun hid => hct (hk.id_inj (hk.ownLoop c hc).1 ht hid)
  cases hnone : (g'.loop (own c)).outerLoop with
  | none =>
      obtain ⟨g'', hadd, hk', haround⟩ := hk.addLoop hc hnone hct ht
      refine ⟨g'', ?_, hk', by simp [haround], .inr ⟨(around_header hc).trans hnone, haround⟩⟩
      simp [populate, hloop, hid, hnone, hadd]
  | some l =>
      refine ⟨g', ?_, hk, ?_, .inl rfl⟩
      · simp [populate, hloop, hnone]
      · simp [around_header hc, hnone]

/-- After a block of a loop has been come to, it is in a loop; what has been added is the block or the loop it is in. -/
theorem populate (hk : Linked g first own L n g') (hL : ∀ l, L l → l = t ∨ ∃ k, Header g.Edge first k ∧ l = own k) (ht : L t)
    (hb : b ∈ g.blocks) (hbt : Header g.Edge first b → own b ≠ t) : ∃ g'', populate t g' b = some g'' ∧
      Linked g first own L n g'' ∧ around g first own g'' b ≠ none ∧ (around g first own g'' = around g first own g' ∨
        ∃ c, around g first own g' c = none ∧ around g first own g'' = Function.update (around g first own g') c (some t) ∧
          (c = b ∨ Header g.Edge first c ∧ own c ≠ t ∧ around g first own g' b = some (own c))) := by
  by_cases hh : Header g.Edge first b
  · obtain ⟨g'', hs, hk', hne, ho⟩ := hk.populate_loop hh (hk.ownLoop b hh).2.block (hbt hh) ht
    exact ⟨g'', hs, hk', hne, ho.imp_right fun ⟨hnone, hu⟩ => ⟨b, hnone, hu, .inl rfl⟩⟩
  · cases hloop : (g'.block b).loop with
    | none =>
        obtain ⟨g'', hadd, hk', haround⟩ := hk.addBlock hb hh hloop ht
        refine ⟨g'', ?_, hk', by simp [haround], .inr ⟨b, (around_block hh).trans hloop, haround, .inl rfl⟩⟩
        simp [LoopAnalyzer.populate, hloop, hadd]
    | some l =>
        have hbl : around g first own g' b = some l := (around_block hh).trans hloop
        by_cases hlt : l = t
        · refine ⟨g', ?_, hk, by simp [hbl], .inl rfl⟩
          simp [LoopAnalyzer.populate, hloop, hlt]
        · obtain ⟨c, hc, rfl⟩ := (hL l (hk.values b hb l hbl)).resolve_left hlt
          obtain ⟨g'', hs, hk', -, ho⟩ := hk.populate_loop hc hloop hlt ht
          have hbc : b ≠ c := fun hbc => hh (hbc ▸ hc)
          refine ⟨g'', hs, hk', ?_, ho.imp_right fun ⟨hnone, hu⟩ => ⟨c, hnone, hu, .inr ⟨hc, hlt, hbl⟩⟩⟩
          rcases ho with ho | ⟨-, ho⟩ <;> simp [ho, hbc, hbl]

end Linked

/-- The blocks of `R` that are in no loop are being added to `t`; those of `V` have been. -/
structure Round (o₀ : Nat → Option Nat) (R : Nat → Prop) (t : Nat) (V : Nat → Prop) (o : Nat → Option Nat) : Prop where
  keep : ∀ b, o b = o₀ b ∨ o₀ b = none ∧ R b ∧ o b = some t
  done : ∀ b, V b → R b → o b ≠ none

namespace Round

variable {o₀ o o' : Nat → Option Nat} {R V V' : Nat → Prop}

theorem start : Round o₀ R t (fun _ => False) o₀ := ⟨fun _ => .inl rfl, fun _ => False.elim⟩

theorem mono (hr : Round o₀ R t V o) (hV : ∀ b, R b → V' b → V b) : Round o₀ R t V' o :=
  ⟨hr.keep, fun b hb hR => hr.done b (hV b hR hb) hR⟩

theorem step (hr : Round o₀ R t V o) (hne : o' b ≠ none)
    (ho : o' = o ∨ ∃ c, o c = none ∧ o' = Function.update o c (some t) ∧ R c) :
    Round o₀ R t (fun x => x = b ∨ V x) o' := by
  rcases ho with rfl | ⟨c, hnone, rfl, hc⟩
  · exact ⟨hr.keep, fun x hx hR => hx.elim (fun hxb => hxb ▸ hne) fun hV => hr.done x hV hR⟩
  · refine ⟨fun x => ?_, fun x hx hR => ?_⟩
    · by_cases hxc : x = c
      · subst hxc
        have hnone₀ : o₀ x = none := by
          rcases hr.keep x with hx | ⟨hx, -, -⟩
          · exact hx.symm.trans hnone
          · exact hx
        exact .inr ⟨hnone₀, hc, by simp⟩
      · simpa [hxc] using hr.keep x
    · by_cases hxc : x = c
      · simp [hxc]
      · rcases hx with rfl | hx
        · exact hne
        · simpa [hxc] using hr.done x hx hR

/-- Coming to a block of `R`. -/
theorem populate (hr : Round o₀ R t V (around g first own g')) (hk : Linked g first own L n g')
    (hL : ∀ l, L l → l = t ∨ ∃ k, Header g.Edge first k ∧ l = own k) (ht : L t)
    (hR : ∀ b, R b → b ∈ g.blocks ∧ (Header g.Edge first b → own b ≠ t))
    (inner : ∀ b c, R b → Header g.Edge first c → o₀ b = some (own c) → own c ≠ t → R c) (hb : R b) :
    ∃ g'', LoopAnalyzer.populate t g' b = some g'' ∧ Linked g first own L n g'' ∧
      Round o₀ R t (fun x => x = b ∨ V x) (around g first own g'') := by
  obtain ⟨g'', hs, hk', hne, ho⟩ := hk.populate hL ht (hR b hb).1 (hR b hb).2
  refine ⟨g'', hs, hk', hr.step hne (ho.imp_right fun ⟨c, hnone, hu, hc⟩ => ⟨c, hnone, hu, ?_⟩)⟩
  rcases hc with rfl | ⟨hc, hct, hbc⟩
  · exact hb
  · rcases hr.keep b with hbo | ⟨-, -, hbt⟩
    · exact inner b c hb hc (hbo.symm.trans hbc) hct
    · exact absurd (Option.some.inj (hbc.symm.trans hbt)) hct

end Round

theorem populate_only {g'' : Graph} (hs : populate t g' b = some g'') : LoopsOnly g' g'' := by
  rw [populate] at hs
  split at hs
  · exact .loopAddBasicBlock hs
  · split at hs
    · simp only [addInnerLoop, Option.bind_eq_bind, ASSERT_bind, Option.pure_def, Option.some.injEq] at hs
      obtain ⟨-, rfl⟩ := hs
      have honly : LoopsOnly g' (g'.setOuterLoop ‹_› t) := .modifyLoop _
      exact honly.trans (.modifyLoop _)
    · exact Option.some.inj hs ▸ .refl g'

theorem dfsPopulateLoops_marks (g : Graph) (t : Nat) :
    (dfsPopulateLoops t).Marks (fun b => (g.block b).preds) fun s => LoopsOnly g s.1 :=
  dfsPopulateLoops_marks_of id fun h hs => h.trans (populate_only hs)

/-- What coming to a block leaves as it was. -/
theorem populate_frame {g'' : Graph} (hs : populate t g' b = some g'') :
    (∃ blocks loops, g''.loop t = { g'.loop t with basicBlocks := blocks, innerLoops := loops }) ∧
      ∀ x, x ≠ b → (g''.block x).loop = (g'.block x).loop := by
  rw [populate] at hs
  split at hs
  · simp only [loopAddBasicBlock, Option.bind_eq_bind, ASSERT_bind, Option.pure_def, Option.some.injEq] at hs
    obtain ⟨-, rfl⟩ := hs
    exact ⟨⟨_, _, modifyLoop_loop_self⟩, fun x hx => by simp [hx]⟩
  · next l _ =>
      split at hs
      · next hne =>
          have hlt : t ≠ l := fun hlt => hne.1 (hlt ▸ rfl)
          simp only [addInnerLoop, Option.bind_eq_bind, ASSERT_bind, Option.pure_def, Option.some.injEq] at hs
          obtain ⟨-, rfl⟩ := hs
          refine ⟨⟨(g'.loop t).basicBlocks, (g'.loop t).innerLoops ++ [l], ?_⟩, fun _ _ => rfl⟩
          simp [setOuterLoop, hlt]
      · exact Option.some.inj hs ▸ ⟨⟨_, _, rfl⟩, fun _ _ => rfl⟩

end CompilerLab.Jit.LoopAnalyzer
