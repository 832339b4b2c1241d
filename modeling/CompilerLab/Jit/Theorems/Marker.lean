import CompilerLab.Jit.Marker
import Mathlib.Data.List.FinRange
import Mathlib.Data.List.Pairwise

/-!
# Markers are fresh and do not meet

A mark is never above the count of acquisitions of the graph its object is in, and the markers a graph holds occupy
different slots. Both are kept by every use of a marker.
-/

namespace CompilerLab.Jit

open CompilerLab.Lib MarkersConstants

/-! ## Packing -/

theorem Marker.toNat_pack {n i : Nat} (hn : n ≤ MAX_VALUE) (hi : i < MAX_MARKERS) :
    (BitVec.ofNat 32 (n <<< BIT_LENGTH ||| i)).toNat = 4 * n + i := by
  have hi' : i < 2 ^ 2 := hi
  have hn' : n ≤ 2 ^ 30 - 1 := hn
  have hor : n <<< BIT_LENGTH ||| i = n <<< 2 + i := (Nat.shiftLeft_add_eq_or_of_lt hi' n).symm
  rw [BitVec.toNat_ofNat, hor, Nat.shiftLeft_eq, Nat.mod_eq_of_lt (by omega)]
  omega

theorem Marker.toNat_value (m : Marker) : m.value.toNat = m.toNat / 4 := by
  rw [Marker.value, BitVec.toNat_ushiftRight, Nat.shiftRight_eq_div_pow]
  rfl

theorem Marker.index_val (m : Marker) : (m.index : Nat) = m.toNat % 4 := by
  have hmask : INDEX_MASK.toNat = 2 ^ 2 - 1 := rfl
  show (m &&& INDEX_MASK).toNat = m.toNat % 4
  rw [BitVec.toNat_and, hmask, Nat.and_two_pow_sub_one_eq_mod]

namespace MarkerManager

variable {m m' : MarkerManager} {mark : Marker}

/-- What a completed acquisition did: the marker carries the new count, and its slot was free. -/
theorem getNewMarker_cases (h : m.getNewMarker = some (m', mark)) :
    m'.currentIndex = m.currentIndex + 1 ∧ m.currentIndex < MAX_VALUE ∧
      mark.value.toNat = m'.currentIndex ∧ m.markersSlots mark.index = false ∧
      m'.markersSlots = Function.update m.markersSlots mark.index true := by
  simp only [getNewMarker, Option.bind_eq_bind, Option.bind_eq_some_iff, ASSERT_eq_some, exists_const, Option.pure_def,
    Option.some.injEq, Prod.mk.injEq] at h
  obtain ⟨hlt, i, hi, rfl, rfl⟩ := h
  have hpack := Marker.toNat_pack (Nat.succ_le_of_lt hlt) i.isLt
  have hi4 : (i : Nat) < 4 := i.isLt
  have hindex : Marker.index (BitVec.ofNat 32 ((m.currentIndex + 1) <<< BIT_LENGTH ||| i)) = i := by
    apply Fin.ext
    rw [Marker.index_val, hpack]
    omega
  have hfree := List.find?_some hi
  refine ⟨rfl, hlt, ?_, ?_, ?_⟩
  · rw [Marker.toNat_value, hpack]
    show (4 * (m.currentIndex + 1) + i) / 4 = m.currentIndex + 1
    omega
  · rw [hindex]
    simpa using hfree
  · rw [hindex]

theorem setMarkerIndex_cases {n : Nat} (h : m.setMarkerIndex n = some m') :
    n < MAX_VALUE ∧ m' = { m with currentIndex := max m.currentIndex n } := by
  simp only [setMarkerIndex, Option.bind_eq_bind, ASSERT_bind, Option.pure_def, Option.some.injEq] at h
  exact ⟨h.1, h.2.symm⟩

end MarkerManager

namespace Markable

variable {x : Markable} {mark mark' : Marker}

theorem setMarker_of_ne (h : mark'.index ≠ mark.index) :
    (x.setMarker mark).1.isMarkerSet mark' = x.isMarkerSet mark' := by
  simp only [setMarker, isMarkerSet, Function.update_of_ne h]

theorem clearMarker_of_ne (h : mark'.index ≠ mark.index) :
    (x.clearMarker mark).isMarkerSet mark' = x.isMarkerSet mark' := by
  simp only [clearMarker, isMarkerSet, Function.update_of_ne h]

@[simp] theorem isMarkerSet_setMarker : (x.setMarker mark).1.isMarkerSet mark = true := by
  simp [setMarker, isMarkerSet]

end Markable

/-! ## The invariant -/

namespace Marking

variable {s s' : Marking} {op : Op} {ops : List Op}

/-- No mark and no marker is ahead of the count of its graph, and the held markers are in slots of their own. -/
structure Ordered (s : Marking) : Prop where
  bound : ∀ graph, (s.manager graph).currentIndex ≤ MAX_VALUE
  marks : ∀ o i, ((s.object o).markers i).toNat ≤ (s.manager (s.owner o)).currentIndex
  acquired : ∀ graph, ∀ m ∈ s.acquired graph, 1 ≤ m.value.toNat ∧ m.value.toNat ≤ (s.manager graph).currentIndex
  held : ∀ graph, ∀ m ∈ s.held graph, m ∈ s.acquired graph ∧ (s.manager graph).markersSlots m.index = true
  apart : ∀ graph, (s.held graph).Pairwise fun m m' => m.index ≠ m'.index

namespace Ordered

theorem start (owner : Nat → Nat) : Ordered (Marking.start owner) where
  bound _ := Nat.zero_le _
  marks _ _ := Nat.le_refl _
  acquired _ _ h := absurd h List.not_mem_nil
  held _ _ h := absurd h List.not_mem_nil
  apart _ := .nil

theorem index_ne {graph : Nat} {m m' : Marker} (h : s.Ordered) (hm : m ∈ s.held graph) (hm' : m' ∈ s.held graph)
    (hne : m ≠ m') : m.index ≠ m'.index := by
  have : Std.Symm fun m m' : Marker => m.index ≠ m'.index := ⟨fun _ _ hab => hab.symm⟩
  exact (h.apart graph).forall hm hm' hne

theorem acquire {graph : Nat} (h : s.Ordered) (hs : s.step (.acquire graph) = some s') : s'.Ordered := by
  simp only [step, Option.bind_eq_bind, Option.bind_eq_some_iff, Option.pure_def, Option.some.injEq] at hs
  obtain ⟨⟨manager, mark⟩, hnew, rfl⟩ := hs
  obtain ⟨hindex, hlt, hvalue, hfree, hslots⟩ := MarkerManager.getNewMarker_cases hnew
  have hle : (s.manager graph).currentIndex ≤ manager.currentIndex := hindex ▸ Nat.le_succ _
  -- the counts only grow
  have grow : ∀ k, (s.manager k).currentIndex ≤ (Function.update s.manager graph manager k).currentIndex := by
    intro k
    by_cases hk : k = graph
    · subst hk
      rw [Function.update_self]
      exact hle
    · rw [Function.update_of_ne hk]
  constructor
  · intro k
    by_cases hk : k = graph
    · subst hk
      simp only [Function.update_self, hindex]
      exact hlt
    · simp only [Function.update_of_ne hk]
      exact h.bound k
  · intro o i
    exact (h.marks o i).trans (grow _)
  · intro k m hm
    by_cases hk : k = graph
    · subst hk
      simp only [Function.update_self, List.mem_cons] at hm ⊢
      rcases hm with rfl | hm
      · rw [hvalue, hindex]
        exact ⟨Nat.succ_pos _, Nat.le_refl _⟩
      · exact ⟨(h.acquired k m hm).1, (h.acquired k m hm).2.trans hle⟩
    · simp only [Function.update_of_ne hk] at hm ⊢
      exact h.acquired k m hm
  · intro k m hm
    by_cases hk : k = graph
    · subst hk
      simp only [Function.update_self, List.mem_cons, hslots] at hm ⊢
      rcases hm with rfl | hm
      · exact ⟨.inl rfl, Function.update_self ..⟩
      · obtain ⟨hacq, hslot⟩ := h.held k m hm
        refine ⟨.inr hacq, ?_⟩
        by_cases hi : m.index = mark.index
        · rw [hi, Function.update_self]
        · rw [Function.update_of_ne hi]
          exact hslot
    · simp only [Function.update_of_ne hk] at hm ⊢
      exact h.held k m hm
  · intro k
    by_cases hk : k = graph
    · subst hk
      simp only [Function.update_self]
      refine .cons (fun m hm he => ?_) (h.apart k)
      -- the slot of a held marker is in use, the slot of the new one was free
      rw [he, (h.held k m hm).2] at hfree
      cases hfree
    · simp only [Function.update_of_ne hk]
      exact h.apart k

/-- Writing to an object a mark that is not ahead of its graph. -/
theorem mark {o : Nat} {x : Markable} (h : s.Ordered)
    (hx : ∀ i, (x.markers i).toNat ≤ (s.manager (s.owner o)).currentIndex) :
    Ordered { s with object := Function.update s.object o x } where
  bound := h.bound
  marks p i := by
    by_cases hp : p = o
    · subst hp
      simp only [Function.update_self]
      exact hx i
    · simp only [Function.update_of_ne hp]
      exact h.marks p i
  acquired := h.acquired
  held := h.held
  apart := h.apart

theorem set {graph : Nat} {m : Marker} {o : Nat} (h : s.Ordered) (hs : s.step (.set graph m o) = some s') :
    s'.Ordered := by
  simp only [step, Option.bind_eq_bind, ASSERT_bind, Option.pure_def, Option.some.injEq] at hs
  obtain ⟨⟨hm, rfl⟩, rfl⟩ := hs
  refine h.mark fun i => ?_
  by_cases hi : i = m.index
  · subst hi
    simp only [Markable.setMarker, Function.update_self]
    exact (h.acquired _ m hm).2
  · simp only [Markable.setMarker, Function.update_of_ne hi]
    exact h.marks o i

theorem clear {graph : Nat} {m : Marker} {o : Nat} (h : s.Ordered) (hs : s.step (.clear graph m o) = some s') :
    s'.Ordered := by
  simp only [step, Option.bind_eq_bind, ASSERT_bind, Option.pure_def, Option.some.injEq] at hs
  obtain ⟨⟨hm, rfl⟩, rfl⟩ := hs
  refine h.mark fun i => ?_
  by_cases hi : i = m.index
  · subst hi
    simp only [Markable.clearMarker, Function.update_self]
    exact Nat.zero_le _
  · simp only [Markable.clearMarker, Function.update_of_ne hi]
    exact h.marks o i

theorem release {graph : Nat} {m : Marker} (h : s.Ordered) (hs : s.step (.release graph m) = some s') :
    s'.Ordered := by
  simp only [step, Option.bind_eq_bind, ASSERT_bind, Option.pure_def, Option.some.injEq] at hs
  obtain ⟨hm, rfl⟩ := hs
  have count : ∀ k, (Function.update s.manager graph ((s.manager graph).releaseMarker m) k).currentIndex =
      (s.manager k).currentIndex := by
    intro k
    by_cases hk : k = graph
    · subst hk
      rw [Function.update_self]
      rfl
    · rw [Function.update_of_ne hk]
  constructor
  · intro k
    rw [count]
    exact h.bound k
  · intro o i
    rw [count]
    exact h.marks o i
  · intro k m' hm'
    rw [count]
    exact h.acquired k m' hm'
  · intro k m' hm'
    by_cases hk : k = graph
    · subst hk
      simp only [Function.update_self] at hm' ⊢
      have hmem := List.mem_of_mem_erase hm'
      refine ⟨(h.held k m' hmem).1, ?_⟩
      -- a marker that stays is in another slot than the one that goes
      have hne : m'.index ≠ m.index := by
        have hnodup : (s.held k).Nodup := (h.apart k).imp (S := (· ≠ ·)) fun hne he => hne (he ▸ rfl)
        have hmm := ((hnodup.mem_erase_iff).1 hm').1
        exact h.index_ne hmem hm hmm
      simp only [MarkerManager.releaseMarker, Function.update_of_ne hne]
      exact (h.held k m' hmem).2
    · simp only [Function.update_of_ne hk] at hm' ⊢
      exact h.held k m' hm'
  · intro k
    by_cases hk : k = graph
    · subst hk
      simp only [Function.update_self]
      exact (h.apart k).sublist List.erase_sublist
    · simp only [Function.update_of_ne hk]
      exact h.apart k

theorem create {graph o : Nat} (h : s.Ordered) (hs : s.step (.create graph o) = some s') : s'.Ordered := by
  cases hs
  refine { h with marks := fun p i => ?_ }
  by_cases hp : p = o
  · subst hp
    simp only [Function.update_self]
    exact Nat.zero_le _
  · simp only [Function.update_of_ne hp]
    exact h.marks p i

/-- The merge raises the count of the caller to that of the callee, so the marks its new objects bring are not ahead. -/
theorem inline {caller callee : Nat} {moved : Nat → Bool} (h : s.Ordered)
    (hs : s.step (.inline caller callee moved) = some s') : s'.Ordered := by
  simp only [step, Option.bind_eq_bind, Option.bind_eq_some_iff, Option.pure_def, Option.some.injEq] at hs
  obtain ⟨manager, hset, rfl⟩ := hs
  obtain ⟨hlt, rfl⟩ := MarkerManager.setMarkerIndex_cases hset
  have grow : ∀ k, (s.manager k).currentIndex ≤ (Function.update s.manager caller
      { s.manager caller with currentIndex := max (s.manager caller).currentIndex (s.manager callee).currentIndex }
      k).currentIndex := by
    intro k
    by_cases hk : k = caller
    · subst hk
      rw [Function.update_self]
      exact Nat.le_max_left _ _
    · rw [Function.update_of_ne hk]
  constructor
  · intro k
    by_cases hk : k = caller
    · subst hk
      simp only [Function.update_self]
      exact Nat.max_le.2 ⟨h.bound k, hlt.le⟩
    · simp only [Function.update_of_ne hk]
      exact h.bound k
  · intro o i
    have ho := h.marks o i
    simp only
    split_ifs with hmoved
    · rw [hmoved.1] at ho
      rw [Function.update_self]
      exact ho.trans (Nat.le_max_right _ _)
    · exact ho.trans (grow _)
  · intro k m hm
    exact ⟨(h.acquired k m hm).1, (h.acquired k m hm).2.trans (grow k)⟩
  · intro k m hm
    refine ⟨(h.held k m hm).1, ?_⟩
    by_cases hk : k = caller
    · subst hk
      simp only [Function.update_self]
      exact (h.held k m hm).2
    · simp only [Function.update_of_ne hk]
      exact (h.held k m hm).2
  · exact h.apart

theorem step (h : s.Ordered) (hs : s.step op = some s') : s'.Ordered := by
  cases op with
  | acquire => exact h.acquire hs
  | set => exact h.set hs
  | test =>
      simp only [Marking.step, Option.bind_eq_bind, ASSERT_bind, Option.pure_def, Option.some.injEq] at hs
      exact hs.2 ▸ h
  | clear => exact h.clear hs
  | release => exact h.release hs
  | create => exact h.create hs
  | inline => exact h.inline hs

theorem reaches {owner : Nat → Nat} (hs : (Marking.start owner).Reaches ops s) : s.Ordered :=
  Run.invariant (P := fun _ => Ordered) (start owner) (fun h hstep => h.step hstep) hs

end Ordered

/-! ## Freshness and isolation -/

/-- A marker that is handed out after any uses of markers is on no object of its graph, and marking or clearing with a
held marker does not show through another held one. -/
theorem markers_fresh_isolated {owner : Nat → Nat} (hs : (start owner).Reaches ops s) :
    (∀ graph manager mark, (s.manager graph).getNewMarker = some (manager, mark) →
      ∀ o, s.owner o = graph → (s.object o).isMarkerSet mark = false) ∧
    ∀ graph, ∀ m ∈ s.held graph, ∀ m' ∈ s.held graph, m ≠ m' → ∀ o,
      ((s.object o).setMarker m).1.isMarkerSet m' = (s.object o).isMarkerSet m' ∧
      ((s.object o).clearMarker m).isMarkerSet m' = (s.object o).isMarkerSet m' := by
  have h := Ordered.reaches hs
  constructor
  · rintro graph manager mark hnew o rfl
    obtain ⟨hindex, -, hvalue, -, -⟩ := MarkerManager.getNewMarker_cases hnew
    have hle := h.marks o mark.index
    apply beq_false_of_ne
    intro heq
    rw [heq, hvalue, hindex] at hle
    exact Nat.not_succ_le_self _ hle
  · intro graph m hm m' hm' hne o
    have hindex := h.index_ne hm' hm hne.symm
    exact ⟨Markable.setMarker_of_ne hindex, Markable.clearMarker_of_ne hindex⟩

/-- The callee is marked, its blocks go to the caller, and the caller hands out markers before and after. -/
theorem markers_fresh_isolated_inline : ∃ s, (start id).Reaches
    [.acquire 1, .set 1 4 1, .acquire 0, .inline 0 1 fun _ => true, .release 0 4, .acquire 0] s ∧
    ((∀ graph manager mark, (s.manager graph).getNewMarker = some (manager, mark) →
      ∀ o, s.owner o = graph → (s.object o).isMarkerSet mark = false) ∧
    ∀ graph, ∀ m ∈ s.held graph, ∀ m' ∈ s.held graph, m ≠ m' → ∀ o,
      ((s.object o).setMarker m).1.isMarkerSet m' = (s.object o).isMarkerSet m' ∧
      ((s.object o).clearMarker m).isMarkerSet m' = (s.object o).isMarkerSet m') := by
  have hs : ∃ s, (start id).Reaches
      [.acquire 1, .set 1 4 1, .acquire 0, .inline 0 1 fun _ => true, .release 0 4, .acquire 0] s :=
    ⟨_, .cons rfl (.cons rfl (.cons rfl (.cons rfl (.cons rfl (.cons rfl .nil)))))⟩
  exact hs.imp fun s hs => ⟨hs, markers_fresh_isolated hs⟩

end Marking

end CompilerLab.Jit
