import CompilerLab.Jit.Lemmas.DomTreeBuilder

/-!
# The links of the builder

When every number is that of a block, the links of the disjoint sets lead to blocks with smaller numbers, labels are not
that of the first block, and a block is registered with its semidominator before that one is processed.
-/

namespace CompilerLab.Jit.DomTreeBuilder

open CompilerLab.Lib

variable {g : Graph} {s s' : DomTreeBuilder} {a b c d m : Nat} {i j k n lo hi : Nat} {order : List Nat}

/-- The order of the traversal when it has come to all blocks and none has been removed. -/
structure Complete (g : Graph) (order : List Nat) : Prop where
  numbered : g.Numbered
  nodup : order.Nodup
  mem : ∀ b, b ∈ order ↔ b ∈ g.blocks
  length : order.length = g.bblocks.length
  preds : ∀ b ∈ g.blocks, ∀ c ∈ (g.block b).preds, c ∈ g.blocks
  edges : ∀ b ∈ g.blocks, ∀ c ∈ g.blocks, g.Edge b c → b ∈ (g.block c).preds

namespace Complete

theorem block (h : Complete g order) (hb : order[i]? = some b) : b ∈ g.blocks := (h.mem b).1 (List.mem_of_getElem? hb)

theorem id_lt (h : Complete g order) (hb : order[i]? = some b) : (g.block b).id < g.bblocks.length :=
  h.numbered.id_lt (h.block hb)

theorem lt (h : Complete g order) (hb : order[i]? = some b) : i < g.bblocks.length :=
  h.length ▸ (List.getElem?_eq_some_iff.1 hb).1

theorem index (h : Complete g order) (hb : order[i]? = some b) (hb' : order[j]? = some b) : i = j :=
  (List.getElem?_inj (List.getElem?_eq_some_iff.1 hb).1 h.nodup).1 (hb.trans hb'.symm)

theorem id_ne (h : Complete g order) (hb : order[i]? = some b) (hc : order[j]? = some c) (hne : b ≠ c) :
    (g.block b).id ≠ (g.block c).id := fun heq => hne (h.numbered.id_inj (h.block hb) (h.block hc) heq)

theorem exists_number (h : Complete g order) (hb : b ∈ g.blocks) : ∃ i : Nat, order[i]? = some b :=
  List.getElem?_of_mem ((h.mem b).2 hb)

theorem exists_block (h : Complete g order) (hi : i < g.bblocks.length) : ∃ b, order[i]? = some b :=
  ⟨_, List.getElem?_eq_getElem (h.length.symm ▸ hi)⟩

end Complete

/-! ## The disjoint sets -/

/-- Blocks with numbers from `hi` on have been linked, and the semidominator of a block below `lo` is still the block. -/
structure Forest (g : Graph) (order : List Nat) (lo hi : Nat) (s : DomTreeBuilder) : Prop where
  ordered : s.orderedBBlocks = order.map some
  parent : ∀ i b, order[i + 1]? = some b → ∃ j p, s.bblocksParents[(g.block b).id]? = some (some p) ∧ j ≤ i ∧
    order[j]? = some p ∧ g.Edge p b
  lengths : s.labels.length = g.bblocks.length ∧ s.sdoms.length = g.bblocks.length ∧
    s.universum.length = g.bblocks.length
  sdom : ∀ j b, order[j]? = some b → ∃ k ≤ j, s.sdoms[(g.block b).id]? = some k ∧ (j < lo → k = j) ∧
    (hi ≤ j → 0 < j → k < j)
  root : ∀ j b, order[j]? = some b → j < hi ∨ j = 0 → s.universum[(g.block b).id]? = some none
  link : ∀ j b, order[j]? = some b → hi ≤ j → 0 < j → ∃ k a, s.universum[(g.block b).id]? = some (some a) ∧
    order[k]? = some a ∧ k < j
  label : ∀ j b, order[j]? = some b → ∃ k m, s.labels[(g.block b).id]? = some (some m) ∧ order[k]? = some m ∧ (0 < j → 0 < k)

namespace Forest

theorem getOrderedBlock (h : Forest g order lo hi s) (hb : order[i]? = some b) :
    DomTreeBuilder.getOrderedBlock s i = some b := by
  simp [DomTreeBuilder.getOrderedBlock, h.ordered, hb]

theorem setLabel (hc : Complete g order) (h : Forest g order lo hi s) (hb : order[j]? = some b) (hm : order[k]? = some m)
    (hpos : 0 < j → 0 < k) : Forest g order lo hi { s with labels := s.labels.set (g.block b).id (some m) } where
  ordered := h.ordered
  parent := h.parent
  lengths := by simpa using h.lengths
  sdom := h.sdom
  root := h.root
  link := h.link
  label i x hx := by
    by_cases hxb : x = b
    · subst hxb
      obtain rfl := hc.index hx hb
      exact ⟨k, m, List.getElem?_set_self (h.lengths.1 ▸ hc.id_lt hx), hm, hpos⟩
    · obtain ⟨n, y, hy, hn⟩ := h.label i x hx
      exact ⟨n, y, by rw [List.getElem?_set_ne (hc.id_ne hb hx (Ne.symm hxb)), hy], hn⟩

theorem setLink (hc : Complete g order) (h : Forest g order lo hi s) (hb : order[j]? = some b) (ha : order[k]? = some a)
    (hlt : k < j) (hhi : hi ≤ j) : Forest g order lo hi { s with universum := s.universum.set (g.block b).id (some a) } where
  ordered := h.ordered
  parent := h.parent
  lengths := by simpa using h.lengths
  sdom := h.sdom
  root i x hx hi := by
    have hxb : x ≠ b := by
      rintro rfl
      have := hc.index hx hb
      omega
    rw [List.getElem?_set_ne (hc.id_ne hb hx hxb.symm)]
    exact h.root i x hx hi
  link i x hx hi hpos := by
    by_cases hxb : x = b
    · subst hxb
      obtain rfl := hc.index hx hb
      exact ⟨k, a, List.getElem?_set_self (h.lengths.2.2 ▸ hc.id_lt hx), ha, hlt⟩
    · obtain ⟨n, y, hy, hn⟩ := h.link i x hx hi hpos
      exact ⟨n, y, by rw [List.getElem?_set_ne (hc.id_ne hb hx (Ne.symm hxb)), hy], hn⟩
  label := h.label

/-- What a search in the disjoint sets may change. -/
def Searched (s s' : DomTreeBuilder) : Prop := s' = { s with labels := s'.labels, universum := s'.universum }

theorem updateLabel (hc : Complete g order) (h : Forest g order lo hi s) (hb : order[j]? = some b) (ha : order[k]? = some a)
    (hpos : 0 < k) : ∃ s', DomTreeBuilder.updateLabel g s b a = some s' ∧ Forest g order lo hi s' ∧ Searched s s' := by
  obtain ⟨i₁, m₁, hm₁, hi₁, -⟩ := h.label j b hb
  obtain ⟨i₂, m₂, hm₂, hi₂, hpos₂⟩ := h.label k a ha
  obtain ⟨n₁, -, hn₁, -⟩ := h.sdom i₁ m₁ hi₁
  obtain ⟨n₂, -, hn₂, -⟩ := h.sdom i₂ m₂ hi₂
  simp only [DomTreeBuilder.updateLabel, hm₁, hm₂, getSemiDomNumber, hn₁, hn₂, Option.bind_eq_bind, Option.bind_some,
    Option.pure_def]
  split
  · refine ⟨{ s with labels := s.labels.set (g.block b).id (some m₂) }, ?_, h.setLabel hc hb hi₂ fun _ => hpos₂ hpos, rfl⟩
    rw [setAt_eq (h.lengths.1 ▸ hc.id_lt hb), Option.bind_some]
  · exact ⟨s, rfl, h, rfl⟩

/-- The links are followed to the root, which is not linked, and shortened. -/
theorem compressUniversum (hc : Complete g order) (h : Forest g order lo hi s) (hb : order[j]? = some b) (hhi : hi ≤ j)
    (hpos : 0 < j) (hn : j < n) :
    ∃ s', DomTreeBuilder.compressUniversum g n s b = some s' ∧ Forest g order lo hi s' ∧ Searched s s' := by
  induction n generalizing s b j with
  | zero => omega
  | succ n ih =>
      obtain ⟨k, anc, hanc, hk, hlt⟩ := h.link j b hb hhi hpos
      rw [DomTreeBuilder.compressUniversum]
      by_cases hroot : k < hi ∨ k = 0
      · refine ⟨s, ?_, h, rfl⟩
        simp [hanc, h.root k anc hk hroot]
      · obtain ⟨k', anc', hanc', -, -⟩ := h.link k anc hk (by omega) (by omega)
        obtain ⟨s₁, hs₁, h₁, hsearched₁⟩ := ih h hk (by omega) (by omega) (by omega)
        obtain ⟨s₂, hs₂, h₂, hsearched₂⟩ := h₁.updateLabel hc hb hk (by omega)
        obtain ⟨i, m, hm, hi, hlt'⟩ := h₂.link k anc hk (by omega) (by omega)
        refine ⟨{ s₂ with universum := s₂.universum.set (g.block b).id (some m) }, ?_,
          h₂.setLink hc hb hi (by omega) hhi, ?_⟩
        · simp only [hanc, hanc', hs₁, hs₂, hm, setAt_eq (h₂.lengths.2.2 ▸ hc.id_lt hb), Option.bind_eq_bind,
            Option.bind_some, reduceCtorEq, if_false, Option.pure_def]
        · rw [Searched, hsearched₂, hsearched₁]

/-- The root of a set is its own, and another block is given a label that is not the first block. -/
theorem find (hc : Complete g order) (h : Forest g order lo hi s) (hb : order[j]? = some b) : ∃ m k s',
    DomTreeBuilder.find g s b = some (m, s') ∧ Forest g order lo hi s' ∧ Searched s s' ∧ order[k]? = some m ∧
      (j < hi ∨ j = 0 → m = b) ∧ (0 < j → 0 < k) := by
  rw [DomTreeBuilder.find]
  by_cases hroot : j < hi ∨ j = 0
  · refine ⟨b, j, s, ?_, h, rfl, hb, fun _ => rfl, id⟩
    simp [h.root j b hb hroot]
  · obtain ⟨_, _, hlink, -, -⟩ := h.link j b hb (by omega) (by omega)
    have hfuel : j < s.universum.length + 1 := by
      have := hc.lt hb
      rw [h.lengths.2.2]
      omega
    obtain ⟨s', hs', h', hsearched⟩ := h.compressUniversum hc hb (by omega) (by omega) hfuel
    obtain ⟨k, m, hm, hk, hpos⟩ := h'.label j b hb
    refine ⟨m, k, s', ?_, h', hsearched, hk, fun hlt => absurd hlt hroot, hpos⟩
    simp [hlink, hs', hm]

/-- The arrays of the other steps do not matter to the sets. -/
theorem congr (h : Forest g order lo hi s) (heq : s' = { s with sdomsSet := s'.sdomsSet, idoms := s'.idoms }) :
    Forest g order lo hi s' := by
  rw [heq]
  exact ⟨h.ordered, h.parent, h.lengths, h.sdom, h.root, h.link, h.label⟩

/-! ## Semidominators -/

/-- The semidominator of block `cur` may have been lowered, and the sets searched. -/
structure Lowered (g : Graph) (order : List Nat) (cur : Nat) (s s' : DomTreeBuilder) : Prop where
  only : s' = { s with labels := s'.labels, universum := s'.universum, sdoms := s'.sdoms }
  other : ∀ (j : Nat) b, order[j]? = some b → b ≠ cur → s'.sdoms[(g.block b).id]? = s.sdoms[(g.block b).id]?
  le : ∀ k, s.sdoms[(g.block cur).id]? = some k → ∃ k' ≤ k, s'.sdoms[(g.block cur).id]? = some k'

theorem Lowered.trans {cur : Nat} {s'' : DomTreeBuilder} (h : Lowered g order cur s s') (h' : Lowered g order cur s' s'') :
    Lowered g order cur s s'' where
  only := by rw [h'.only, h.only]
  other j b hb hne := (h'.other j b hb hne).trans (h.other j b hb hne)
  le k hk := by
    obtain ⟨k', hle, hk'⟩ := h.le k hk
    obtain ⟨k'', hle', hk''⟩ := h'.le k' hk'
    exact ⟨k'', hle'.trans hle, hk''⟩

theorem lowerSemiDom {cur p : Nat} (hc : Complete g order) (h : Forest g order i (i + 1) s) (hcur : order[i]? = some cur)
    (hp : order[j]? = some p) : ∃ s', DomTreeBuilder.lowerSemiDom g cur s p = some s' ∧ Forest g order i (i + 1) s' ∧
      Lowered g order cur s s' ∧ (j < i → ∃ k ≤ j, s'.sdoms[(g.block cur).id]? = some k) := by
  obtain ⟨m, k, s₁, hfind, h₁, hsearched, hm, hroot, -⟩ := h.find hc hp
  obtain ⟨n₁, hle₁, hn₁, -⟩ := h₁.sdom i cur hcur
  obtain ⟨n₂, -, hn₂, -⟩ := h₁.sdom k m hm
  have hid := h₁.lengths.2.1 ▸ hc.id_lt hcur
  have hsame : s₁.sdoms = s.sdoms := by rw [hsearched]
  have hne : ∀ {j b}, order[j]? = some b → b ≠ cur → (g.block cur).id ≠ (g.block b).id := fun hb hbc =>
    hc.id_ne hcur hb hbc.symm
  refine ⟨{ s₁ with sdoms := s₁.sdoms.set (g.block cur).id (min n₁ n₂) }, ?_, ?_, ?_, fun hlt => ?_⟩
  · simp only [DomTreeBuilder.lowerSemiDom, hfind, getSemiDomNumber, hn₁, hn₂, setAt_eq hid, Option.bind_eq_bind,
      Option.bind_some, Option.pure_def]
  · refine ⟨h₁.ordered, h₁.parent, by simpa using h₁.lengths, fun j b hb => ?_, h₁.root, h₁.link, h₁.label⟩
    by_cases hbc : b = cur
    · subst hbc
      obtain rfl := hc.index hb hcur
      exact ⟨min n₁ n₂, (min_le_left ..).trans hle₁, List.getElem?_set_self hid, by omega, by omega⟩
    · obtain ⟨n, hn⟩ := h₁.sdom j b hb
      exact ⟨n, by rw [List.getElem?_set_ne (hne hb hbc)]; exact hn⟩
  · refine ⟨by rw [hsearched], fun j b hb hbc => ?_, fun n hn => ?_⟩
    · rw [List.getElem?_set_ne (hne hb hbc), hsame]
    · rw [← hsame, hn₁, Option.some.injEq] at hn
      exact ⟨min n₁ n₂, hn ▸ min_le_left .., List.getElem?_set_self hid⟩
  · obtain rfl := hroot (.inl (Nat.lt_succ_of_lt hlt))
    obtain rfl := hc.index hm hp
    obtain ⟨n, -, hn, heq, -⟩ := h₁.sdom k m hm
    obtain rfl := Option.some.inj (hn₂.symm.trans hn)
    exact ⟨min n₁ n₂, (min_le_right ..).trans (heq hlt).le, List.getElem?_set_self hid⟩

/-- The semidominator of a block with a parent is a block before it. -/
theorem lowerSemiDoms {cur : Nat} (hc : Complete g order) (h : Forest g order i (i + 1) s) (hcur : order[i]? = some cur) :
    ∃ s', (g.block cur).preds.foldlM (DomTreeBuilder.lowerSemiDom g cur) s = some s' ∧ Forest g order i (i + 1) s' ∧
      Lowered g order cur s s' ∧ (0 < i → ∃ k < i, s'.sdoms[(g.block cur).id]? = some k) := by
  obtain ⟨s', hs', h', hl, hpreds⟩ := foldlM_completes (P := fun done s' => Forest g order i (i + 1) s' ∧
      Lowered g order cur s s' ∧ ∀ p ∈ done, ∀ j < i, order[j]? = some p → ∃ k < i, s'.sdoms[(g.block cur).id]? = some k)
    (f := DomTreeBuilder.lowerSemiDom g cur) (l := (g.block cur).preds) (s := s) (fun done p rest t heq ht => by
      obtain ⟨ht, hl, hdone⟩ := ht
      obtain ⟨j, hj⟩ := hc.exists_number (hc.preds cur (hc.block hcur) p (by simp [heq]))
      obtain ⟨t', ht', hforest, hl', hlow⟩ := ht.lowerSemiDom hc hcur hj
      refine ⟨t', ht', hforest, hl.trans hl', fun q hq j' hlt hj' => ?_⟩
      rcases List.mem_append.1 hq with hq | hq
      · obtain ⟨k, hk, hsdom⟩ := hdone q hq j' hlt hj'
        obtain ⟨k', hle, hk'⟩ := hl'.le k hsdom
        exact ⟨k', hle.trans_lt hk, hk'⟩
      · obtain rfl := List.mem_singleton.1 hq
        obtain rfl := hc.index hj hj'
        obtain ⟨k, hle, hk⟩ := hlow hlt
        exact ⟨k, hle.trans_lt hlt, hk⟩) ⟨h, ⟨rfl, fun _ _ _ _ => rfl, fun k hk => ⟨k, le_rfl, hk⟩⟩, by simp⟩
  refine ⟨s', hs', h', hl, fun hpos => ?_⟩
  obtain ⟨k, rfl⟩ : ∃ k, i = k + 1 := ⟨_, (Nat.succ_pred hpos.ne').symm⟩
  obtain ⟨j, p, -, hj, hjp, he⟩ := h.parent k cur hcur
  exact hpreds p (hc.edges p (hc.block hjp) cur (hc.block hcur) he) j (Nat.lt_succ_of_le hj) hjp

theorem unite {cur p : Nat} (hc : Complete g order) (h : Forest g order i (i + 1) s) (hcur : order[i]? = some cur)
    (hpos : 0 < i) (hk : s.sdoms[(g.block cur).id]? = some k) (hlt : k < i) (hp : order[j]? = some p) (hj : j < i) :
    Forest g order i i { s with universum := s.universum.set (g.block cur).id (some p) } where
  ordered := h.ordered
  parent := h.parent
  lengths := by simpa using h.lengths
  sdom x b hb := by
    obtain ⟨n, hle, hn, heq, hlow⟩ := h.sdom x b hb
    refine ⟨n, hle, hn, heq, fun hix hx => ?_⟩
    rcases Nat.eq_or_lt_of_le hix with rfl | hix
    · obtain rfl := Option.some.inj (hb.symm.trans hcur)
      exact Option.some.inj (hn.symm.trans hk) ▸ hlt
    · exact hlow hix hx
  root x b hb hx := by
    have hne : b ≠ cur := by
      rintro rfl
      have := hc.index hb hcur
      omega
    rw [List.getElem?_set_ne (hc.id_ne hcur hb hne.symm)]
    exact h.root x b hb (by omega)
  link x b hb hix hx := by
    by_cases hbc : b = cur
    · subst hbc
      obtain rfl := hc.index hb hcur
      exact ⟨j, p, List.getElem?_set_self (h.lengths.2.2 ▸ hc.id_lt hb), hp, hj⟩
    · have hne : x ≠ i := by
        rintro rfl
        exact hbc (Option.some.inj (hb.symm.trans hcur))
      obtain ⟨n, a, ha, hn⟩ := h.link x b hb (by omega) hx
      exact ⟨n, a, by rw [List.getElem?_set_ne (hc.id_ne hcur hb (Ne.symm hbc)), ha], hn⟩
  label := h.label

end Forest

/-! ## Registered blocks -/

/-- A dominator has been set for `d`, whose semidominator has the number `j`: that block, or one that is not the first. -/
def HasIDom (g : Graph) (order : List Nat) (s : DomTreeBuilder) (d j : Nat) : Prop :=
  ∃ (n : Nat) (m : Nat), s.idoms[(g.block d).id]? = some (some m) ∧ order[n]? = some m ∧ (0 < n ∨ n = j)

/-- The blocks with numbers from `i` on are registered with their semidominators. -/
structure Registered (g : Graph) (order : List Nat) (i : Nat) (s : DomTreeBuilder) : Prop where
  lengths : s.sdomsSet.length = g.bblocks.length ∧ s.idoms.length = g.bblocks.length
  mem : ∀ b ∈ g.blocks, ∃ l, s.sdomsSet[(g.block b).id]? = some l ∧ ∀ d ∈ l, ∃ k : Nat, order[k]? = some d ∧ i ≤ k ∧ 0 < k
  sdom : ∀ (k : Nat) d, order[k]? = some d → i ≤ k → 0 < k → ∀ (j : Nat) b, s.sdoms[(g.block d).id]? = some j →
    order[j]? = some b → ∃ l, s.sdomsSet[(g.block b).id]? = some l ∧ d ∈ l

/-- The dominators of the blocks whose semidominators have numbers from `i` on have been set. -/
def Dominated (g : Graph) (order : List Nat) (i : Nat) (s : DomTreeBuilder) : Prop :=
  ∀ (k : Nat) d, order[k]? = some d → i ≤ k → 0 < k → ∀ j : Nat, s.sdoms[(g.block d).id]? = some j → i ≤ j →
    HasIDom g order s d j

theorem Registered.congr (h : Registered g order i s) (hset : s'.sdomsSet = s.sdomsSet)
    (hlen : s'.idoms.length = s.idoms.length)
    (hs : ∀ (k : Nat) d, order[k]? = some d → i ≤ k → s'.sdoms[(g.block d).id]? = s.sdoms[(g.block d).id]?) :
    Registered g order i s' where
  lengths := by rw [hset, hlen]; exact h.lengths
  mem := hset ▸ h.mem
  sdom k d hd hi hk j b hj hb := by
    rw [hs k d hd hi] at hj
    rw [hset]
    exact h.sdom k d hd hi hk j b hj hb

theorem Registered.registerAndUnite {cur : Nat} (hc : Complete g order) (h : Forest g order i (i + 1) s)
    (hr : Registered g order (i + 1) s) (hcur : order[i]? = some cur) (hpos : 0 < i)
    (hk : s.sdoms[(g.block cur).id]? = some k) (hlt : k < i) : ∃ s', DomTreeBuilder.registerAndUnite g s i cur = some s' ∧
      Forest g order i i s' ∧ Registered g order i s' ∧ s'.sdoms = s.sdoms ∧ s'.idoms = s.idoms := by
  obtain ⟨x, hx⟩ := hc.exists_block (hlt.trans (hc.lt hcur))
  obtain ⟨l, hl, hmem⟩ := hr.mem x (hc.block hx)
  obtain ⟨i', rfl⟩ : ∃ i', i = i' + 1 := ⟨_, (Nat.succ_pred hpos.ne').symm⟩
  obtain ⟨j, p, hp, hj, hjp, -⟩ := h.parent i' cur hcur
  have hid := h.lengths.2.2 ▸ hc.id_lt hcur
  have hidx := hr.lengths.1 ▸ hc.id_lt hx
  have hforest := h.unite hc hcur hpos hk hlt hjp (Nat.lt_succ_of_le hj)
  refine ⟨{ s with
    sdomsSet := s.sdomsSet.set (g.block x).id (l ++ [cur])
    universum := s.universum.set (g.block cur).id (some p) }, ?_, hforest.congr rfl, ?_, rfl, rfl⟩
  · simp only [DomTreeBuilder.registerAndUnite, hpos, if_true, registerSemiDom, unite, getSemiDomNumber, hk, h.getOrderedBlock hx, hl, hp,
      setAt_eq hid, Option.bind_eq_bind, Option.bind_some, Option.pure_def]
  · refine ⟨by simpa using hr.lengths, fun b hb => ?_, fun k' d hd hi hk' j' b hj' hb => ?_⟩
    · by_cases hbx : b = x
      · subst hbx
        refine ⟨l ++ [cur], List.getElem?_set_self hidx, fun d hd => ?_⟩
        rcases List.mem_append.1 hd with hd | hd
        · obtain ⟨n, hn, hin, hpos⟩ := hmem d hd
          exact ⟨n, hn, by omega, hpos⟩
        · exact ⟨i' + 1, List.mem_singleton.1 hd ▸ hcur, le_rfl, hpos⟩
      · obtain ⟨l', hl', hmem'⟩ := hr.mem b hb
        have hne : (g.block x).id ≠ (g.block b).id := fun heq =>
          hbx (hc.numbered.id_inj (hc.block hx) hb heq).symm
        refine ⟨l', by rw [List.getElem?_set_ne hne, hl'], fun d hd => ?_⟩
        obtain ⟨n, hn, hin, hpos⟩ := hmem' d hd
        exact ⟨n, hn, by omega, hpos⟩
    · rcases Nat.eq_or_lt_of_le hi with rfl | hi
      · obtain rfl := Option.some.inj (hd.symm.trans hcur)
        obtain rfl := Option.some.inj (hk.symm.trans hj')
        obtain rfl := Option.some.inj (hx.symm.trans hb)
        exact ⟨l ++ [d], List.getElem?_set_self hidx, by simp⟩
      · obtain ⟨l', hl', hd'⟩ := hr.sdom k' d hd hi hk' j' b hj' hb
        by_cases hbx : b = x
        · subst hbx
          obtain rfl := Option.some.inj (hl.symm.trans hl')
          exact ⟨l ++ [cur], List.getElem?_set_self hidx, List.mem_append_left _ hd'⟩
        · exact ⟨l', by rw [List.getElem?_set_ne (hc.id_ne hx hb (Ne.symm hbx)), hl'], hd'⟩

/-- A block that has been registered is given a dominator. -/
theorem Forest.setIDom (hc : Complete g order) (h : Forest g order i i s) (hlen : s.idoms.length = g.bblocks.length)
    (hd : order[k]? = some d) (hk : 0 < k) : ∃ s', DomTreeBuilder.setIDom g s d = some s' ∧
      Forest g order i i s' ∧ s'.sdoms = s.sdoms ∧ s'.sdomsSet = s.sdomsSet ∧ s'.idoms.length = g.bblocks.length ∧
      (∀ j, s.sdoms[(g.block d).id]? = some j → HasIDom g order s' d j) ∧
      ∀ x ∈ g.blocks, ∀ j, HasIDom g order s x j → x ≠ d → HasIDom g order s' x j := by
  obtain ⟨m, n, s₁, hfind, h₁, hsearched, hm, -, hpos⟩ := h.find hc hd
  obtain ⟨j, hjk, hj, -⟩ := h₁.sdom k d hd
  obtain ⟨j', -, hj', -⟩ := h₁.sdom n m hm
  obtain ⟨x, hx⟩ := hc.exists_block (hjk.trans_lt (hc.lt hd))
  have hsame : s₁.sdoms = s.sdoms ∧ s₁.sdomsSet = s.sdomsSet ∧ s₁.idoms = s.idoms := by
    rw [hsearched]
    exact ⟨rfl, rfl, rfl⟩
  have hid : (g.block d).id < s₁.idoms.length := by
    rw [hsame.2.2, hlen]
    exact hc.id_lt hd
  obtain ⟨v, nv, hv, hnv, hcase⟩ : ∃ (v nv : Nat), (if j' = j then s₁.orderedBBlocks[j]? else pure (some m)) = some (some v) ∧
      order[nv]? = some v ∧ (0 < nv ∨ nv = j) := by
    split
    · exact ⟨x, j, by simp [h₁.ordered, hx], hx, .inr rfl⟩
    · exact ⟨m, n, rfl, hm, .inl (hpos hk)⟩
  have hset : DomTreeBuilder.setIDom g s d = some { s₁ with idoms := s₁.idoms.set (g.block d).id (some v) } := by
    simp only [DomTreeBuilder.setIDom, hfind, getSemiDomNumber, hj, hj', Option.bind_eq_bind, Option.bind_some]
    split at hv
    · next heq =>
        rw [if_pos heq, hv]
        simp only [Option.bind_some, setAt_eq hid, Option.pure_def]
    · next heq =>
        rw [if_neg heq]
        obtain rfl := Option.some.inj (Option.some.inj hv)
        simp only [Option.bind_some, setAt_eq hid, Option.pure_def]
  refine ⟨_, hset, h₁.congr rfl, hsame.1, hsame.2.1, by simp [hsame.2.2, hlen], fun j₁ hj₁ => ?_, fun y hy j₁ hy₁ hne => ?_⟩
  · rw [← hsame.1, hj] at hj₁
    exact ⟨nv, v, List.getElem?_set_self hid, hnv, Option.some.inj hj₁ ▸ hcase⟩
  · obtain ⟨n₁, m₁, hm₁, hn₁⟩ := hy₁
    have hne' : (g.block d).id ≠ (g.block y).id := fun heq => hne (hc.numbered.id_inj (hc.block hd) hy heq).symm
    exact ⟨n₁, m₁, by rw [List.getElem?_set_ne hne', hsame.2.2, hm₁], hn₁⟩

theorem Forest.weaken (h : Forest g order (i + 1) hi s) : Forest g order i hi s where
  ordered := h.ordered
  parent := h.parent
  lengths := h.lengths
  sdom j b hb := by
    obtain ⟨k, hle, hk, heq, hlow⟩ := h.sdom j b hb
    exact ⟨k, hle, hk, fun hlt => heq (Nat.lt_succ_of_lt hlt), hlow⟩
  root := h.root
  link := h.link
  label := h.label

/-- The first block is never linked. -/
theorem Forest.zero (h : Forest g order 0 1 s) : Forest g order 0 0 s where
  ordered := h.ordered
  parent := h.parent
  lengths := h.lengths
  sdom j b hb := by
    obtain ⟨k, hle, hk, heq, hlow⟩ := h.sdom j b hb
    exact ⟨k, hle, hk, heq, fun _ hpos => hlow hpos hpos⟩
  root j b hb hj := h.root j b hb (by omega)
  link j b hb _ hpos := h.link j b hb hpos hpos
  label := h.label

theorem Dominated.congr (h : Dominated g order i s) (hidoms : s'.idoms = s.idoms)
    (hs : ∀ (k : Nat) d, order[k]? = some d → i ≤ k → s'.sdoms[(g.block d).id]? = s.sdoms[(g.block d).id]?) :
    Dominated g order i s' := by
  intro k d hd hik hpos j hj hij
  rw [hs k d hd hik] at hj
  rw [HasIDom, hidoms]
  exact h k d hd hik hpos j hj hij

/-- One block is processed. -/
theorem Forest.computeSDom (hc : Complete g order) (h : Forest g order (i + 1) (i + 1) s) (hr : Registered g order (i + 1) s)
    (hd : Dominated g order (i + 1) s) (hi : i < g.bblocks.length) : ∃ s', DomTreeBuilder.computeSDom g s i = some s' ∧
      Forest g order i i s' ∧ Registered g order i s' ∧ Dominated g order i s' := by
  obtain ⟨cur, hcur⟩ := hc.exists_block hi
  obtain ⟨s₁, hs₁, h₁, hl, hlow⟩ := h.weaken.lowerSemiDoms hc hcur
  have hsame : s₁.sdomsSet = s.sdomsSet ∧ s₁.idoms = s.idoms := by
    rw [hl.only]
    exact ⟨rfl, rfl⟩
  have hother : ∀ (k : Nat) d, order[k]? = some d → i + 1 ≤ k → s₁.sdoms[(g.block d).id]? = s.sdoms[(g.block d).id]? := by
    intro k d hk hik
    refine hl.other k d hk ?_
    rintro rfl
    have := hc.index hk hcur
    omega
  have hr₁ := hr.congr hsame.1 (by rw [hsame.2]) hother
  have hd₁ := hd.congr hsame.2 hother
  obtain ⟨s₂, hs₂, h₂, hr₂, hsdoms, hidoms⟩ : ∃ s₂, DomTreeBuilder.registerAndUnite g s₁ i cur = some s₂ ∧
      Forest g order i i s₂ ∧ Registered g order i s₂ ∧ s₂.sdoms = s₁.sdoms ∧ s₂.idoms = s₁.idoms := by
    cases Nat.eq_zero_or_pos i with
    | inr hpos =>
        obtain ⟨k, hk, hsdom⟩ := hlow hpos
        exact hr₁.registerAndUnite hc h₁ hcur hpos hsdom hk
    | inl hzero =>
        subst hzero
        refine ⟨s₁, rfl, h₁.zero, ⟨hr₁.lengths, fun b hb => ?_, fun k d hk _ hpos => hr₁.sdom k d hk hpos hpos⟩, rfl, rfl⟩
        obtain ⟨l, hl, hmem⟩ := hr₁.mem b hb
        exact ⟨l, hl, fun d hd => (hmem d hd).imp fun k hk => ⟨hk.1, by omega, hk.2.2⟩⟩
  have hd₂ := hd₁.congr hidoms (by simp [hsdoms])
  obtain ⟨l, hl₂, hmem⟩ := hr₂.mem cur (hc.block hcur)
  obtain ⟨s₃, hs₃, h₃, hsdoms₃, hset₃, hlen₃, hdone⟩ := foldlM_completes (P := fun done t => Forest g order i i t ∧
      t.sdoms = s₂.sdoms ∧ t.sdomsSet = s₂.sdomsSet ∧ t.idoms.length = g.bblocks.length ∧
      ∀ x ∈ g.blocks, ∀ j : Nat, s₂.sdoms[(g.block x).id]? = some j → HasIDom g order s₂ x j ∨ x ∈ done →
        HasIDom g order t x j)
    (f := DomTreeBuilder.setIDom g) (l := l) (s := s₂) (fun done x rest t heq ht => by
      obtain ⟨ht, hsdoms, hset, hlen, hdone⟩ := ht
      obtain ⟨k, hk, -, hpos⟩ := hmem x (by simp [heq])
      obtain ⟨t', ht', hforest, hsdoms', hset', hlen', hself, hrest⟩ := ht.setIDom hc hlen hk hpos
      refine ⟨t', ht', hforest, hsdoms'.trans hsdoms, hset'.trans hset, hlen', fun y hy j hj hcase => ?_⟩
      by_cases hyx : y = x
      · subst hyx
        exact hself j (hsdoms ▸ hj)
      · refine hrest y hy j (hdone y hy j hj (hcase.imp_right fun hm => ?_)) hyx
        exact (List.mem_append.1 hm).resolve_right (by simpa using hyx))
    ⟨h₂, rfl, rfl, hr₂.lengths.2, fun x _ j _ hx => hx.resolve_right List.not_mem_nil⟩
  refine ⟨s₃, ?_, h₃, hr₂.congr hset₃ (hlen₃.trans hr₂.lengths.2.symm) (by simp [hsdoms₃]), fun k d hk hik hpos j hj hij => ?_⟩
  · rw [DomTreeBuilder.computeSDom]
    simp only [h.getOrderedBlock hcur, hs₁, hs₂, hl₂, hs₃, Option.bind_eq_bind, Option.bind_some]
  · rw [hsdoms₃] at hj
    have hlt : j < k := by
      obtain ⟨j', -, hj', -, hlow⟩ := h₂.sdom k d hk
      rw [hj'] at hj
      exact Option.some.inj hj ▸ hlow hik hpos
    refine hdone d (hc.block hk) j hj ?_
    rcases Nat.eq_or_lt_of_le hij with rfl | hij
    · obtain ⟨l', hl', hd'⟩ := hr₂.sdom k d hk hik hpos i cur hj hcur
      obtain rfl := Option.some.inj (hl₂.symm.trans hl')
      exact .inr hd'
    · exact .inl (hd₂ k d hk (by omega) hpos j hj hij)

/-- All blocks are processed. -/
theorem computeSDoms_total (hc : Complete g order) (h : Forest g order g.bblocks.length g.bblocks.length s)
    (hr : Registered g order g.bblocks.length s) : ∃ s', computeSDoms g s = some s' ∧
      Forest g order 0 0 s' ∧ Registered g order 0 s' ∧ Dominated g order 0 s' := by
  have hd : Dominated g order g.bblocks.length s := by
    intro k d hk hik
    have := hc.lt hk
    omega
  have down : ∀ n s, n ≤ g.bblocks.length → Forest g order n n s → Registered g order n s → Dominated g order n s →
      ∃ s', (List.range n).reverse.foldlM (DomTreeBuilder.computeSDom g) s = some s' ∧ Forest g order 0 0 s' ∧
        Registered g order 0 s' ∧ Dominated g order 0 s' := by
    intro n
    induction n with
    | zero => exact fun s _ h hr hd => ⟨s, rfl, h, hr, hd⟩
    | succ n ih =>
        intro s hn h hr hd
        obtain ⟨s₁, hs₁, h₁, hr₁, hd₁⟩ := h.computeSDom hc hr hd hn
        obtain ⟨s', hs', hrest⟩ := ih s₁ (by omega) h₁ hr₁ hd₁
        refine ⟨s', ?_, hrest⟩
        rw [List.range_succ, List.reverse_append, List.reverse_singleton, List.singleton_append, List.foldlM_cons, hs₁]
        exact hs'
  rw [computeSDoms, hr.lengths.2]
  exact down _ s le_rfl h hr hd

/-! ## Immediate dominators -/

/-- The dominators of the blocks below `i` have been stored; only those of the others are known to be as they were set. -/
structure Storing (g : Graph) (order : List Nat) (s : DomTreeBuilder) (i : Nat) (t : Doms) : Prop where
  builder : t.builder = { s with idoms := t.builder.idoms }
  ids : ∀ b, (t.graph.block b).id = (g.block b).id
  length : t.builder.idoms.length = g.bblocks.length
  idom : ∀ (k : Nat) d, order[k]? = some d → 0 < k → ∃ (n : Nat) (m : Nat),
    t.builder.idoms[(g.block d).id]? = some (some m) ∧ order[n]? = some m ∧
      (i ≤ k → ∀ j : Nat, s.sdoms[(g.block d).id]? = some j → 0 < n ∨ n = j)

/-- The dominator of a block is that of another one, or its semidominator. -/
theorem Storing.computeIDom {t : Doms} (hc : Complete g order) (hf : Forest g order 0 0 s) (h : Storing g order s i t)
    (hpos : 0 < i) (hi : i < g.bblocks.length) : ∃ t', DomTreeBuilder.computeIDom true t i = some t' ∧
      Storing g order s (i + 1) t' := by
  obtain ⟨cur, hcur⟩ := hc.exists_block hi
  have hord : t.builder.orderedBBlocks = order.map some := by
    rw [h.builder]
    exact hf.ordered
  have hsd : t.builder.sdoms = s.sdoms := by rw [h.builder]
  have hget : DomTreeBuilder.getOrderedBlock t.builder i = some cur := by
    simp [DomTreeBuilder.getOrderedBlock, hord, hcur]
  obtain ⟨j, hji, hj, -⟩ := hf.sdom i cur hcur
  obtain ⟨x, hx⟩ := hc.exists_block (hji.trans_lt hi)
  obtain ⟨n, m, hm, hn, hcase⟩ := h.idom i cur hcur hpos
  have hid : (g.block cur).id < t.builder.idoms.length := by
    rw [h.length]
    exact hc.id_lt hcur
  -- what is stored is a block
  obtain ⟨s₁, m₁, n₁, hs₁, hm₁, hn₁, hb₁, hrest⟩ : ∃ (s₁ : DomTreeBuilder) (m₁ n₁ : Nat),
      updateIDom t.graph t.builder cur = some s₁ ∧ s₁.idoms[(g.block cur).id]? = some (some m₁) ∧ order[n₁]? = some m₁ ∧
      s₁ = { s with idoms := s₁.idoms } ∧ s₁.idoms.length = t.builder.idoms.length ∧
      ∀ (k : Nat) d, order[k]? = some d → d ≠ cur → s₁.idoms[(g.block d).id]? = t.builder.idoms[(g.block d).id]? := by
    have hx' : t.builder.orderedBBlocks[j]? = some (some x) := by simp [hord, hx]
    have hstart : ∀ f : Option Nat → Option Nat → Option DomTreeBuilder, (do
        let idom ← t.builder.idoms[(t.graph.block cur).id]?
        let semiDom ← t.builder.orderedBBlocks[← getSemiDomNumber t.graph t.builder cur]?
        f idom semiDom) = f (some m) (some x) := by
      intro f
      simp only [getSemiDomNumber, h.ids, hm, hsd, hj, hx', Option.bind_eq_bind, Option.bind_some]
    by_cases hmx : m = x
    · refine ⟨t.builder, m, n, ?_, hm, hn, h.builder, rfl, fun _ _ _ _ => rfl⟩
      rw [updateIDom, hstart, if_neg (by simpa using hmx)]
      rfl
    · have hn0 : 0 < n := (hcase le_rfl j hj).resolve_right fun hnj => hmx
        (Option.some.inj (hn.symm.trans (hnj ▸ hx)))
      obtain ⟨n', m', hm', hn', -⟩ := h.idom n m hn hn0
      refine ⟨{ t.builder with idoms := t.builder.idoms.set (g.block cur).id (some m') }, m', n', ?_,
        List.getElem?_set_self hid, hn', by rw [h.builder], by simp, fun k d hd hne => ?_⟩
      · rw [updateIDom, hstart, if_pos (by simpa using hmx)]
        simp only [h.ids, hm', setAt_eq hid, Option.bind_eq_bind, Option.bind_some, Option.pure_def]
      · rw [List.getElem?_set_ne (hc.id_ne hcur hd hne.symm)]
  refine ⟨{ t with
    graph := (t.graph.modifyBlock cur fun x => { x with dominator := some m₁ }).modifyBlock m₁ fun x =>
      { x with dominated := x.dominated ++ [cur] }
    builder := s₁ }, ?_, hb₁, fun b => ?_, hrest.1.trans h.length, fun k d hd hk => ?_⟩
  · rw [DomTreeBuilder.computeIDom]
    simp only [hget, hs₁, h.ids, hm₁, Option.bind_eq_bind, Option.bind_some, if_true, Option.pure_def]
  · have hcur : ∀ b, ((t.graph.modifyBlock cur fun x => { x with dominator := some m₁ }).block b).id = (g.block b).id := by
      intro b
      rw [Graph.modifyBlock_block]
      split
      · next hb => exact hb ▸ h.ids b
      · exact h.ids b
    rw [Graph.modifyBlock_block]
    split
    · next hb => exact hb ▸ hcur b
    · exact hcur b
  · by_cases hdc : d = cur
    · subst hdc
      obtain rfl := hc.index hd hcur
      exact ⟨n₁, m₁, hm₁, hn₁, by omega⟩
    · obtain ⟨n', m', hm', hn', hcase'⟩ := h.idom k d hd hk
      exact ⟨n', m', by rw [hrest.2 k d hd hdc, hm'], hn', fun hik => hcase' (by omega)⟩

theorem computeIDoms_total {g' : Graph} {doms : List DominatorInfo} (hc : Complete g order) (hf : Forest g order 0 0 s)
    (hr : Registered g order 0 s) (hd : Dominated g order 0 s) (hids : ∀ b, (g'.block b).id = (g.block b).id) :
    ∃ t, computeIDoms true ⟨g', s, doms⟩ = some t := by
  have start : Storing g order s 1 ⟨g', s, doms⟩ := by
    refine ⟨rfl, hids, hr.lengths.2, fun k d hk hpos => ?_⟩
    obtain ⟨j, -, hj, -⟩ := hf.sdom k d hk
    obtain ⟨n, m, hm, hn, hcase⟩ := hd k d hk (Nat.zero_le k) hpos j hj (Nat.zero_le j)
    exact ⟨n, m, hm, hn, fun _ j' hj' => Option.some.inj (hj.symm.trans hj') ▸ hcase⟩
  have up : ∀ n i t, 0 < i → i + n = g.bblocks.length → Storing g order s i t →
      ∃ t', (List.range' i n).foldlM (DomTreeBuilder.computeIDom true) t = some t' := by
    intro n
    induction n with
    | zero => exact fun i t _ _ _ => ⟨t, rfl⟩
    | succ n ih =>
        intro i t hpos hin h
        obtain ⟨t₁, ht₁, h₁⟩ := h.computeIDom hc hf hpos (by omega)
        obtain ⟨t', ht'⟩ := ih (i + 1) t₁ (Nat.succ_pos i) (by omega) h₁
        exact ⟨t', by simp [List.range'_succ, ht₁, ht']⟩
  rcases Nat.eq_zero_or_pos g.bblocks.length with hzero | hpos
  · exact ⟨⟨g', s, doms⟩, by simp [computeIDoms, hr.lengths.2, hzero]⟩
  · rw [computeIDoms, hr.lengths.2]
    exact up _ 1 _ Nat.one_pos (by omega) start

end CompilerLab.Jit.DomTreeBuilder
