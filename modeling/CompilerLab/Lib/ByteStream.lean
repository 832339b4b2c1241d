import Mathlib.Data.List.Forall2
import Mathlib.Data.BitVec

/-!
# Streams of bytes

A number is written with its lowest byte first. A reader takes what it reads from the front of a stream; what it reads from a
given input does not depend on what follows.
-/

namespace CompilerLab.Lib

/-! ## Little-endian numbers -/

/-- The `n` lowest bytes of a number, the lowest one first. -/
def toBytes : Nat → Nat → List (BitVec 8)
  | 0, _ => []
  | n + 1, v => BitVec.ofNat 8 v :: toBytes n (v / 256)

def ofBytes : List (BitVec 8) → Nat
  | [] => 0
  | b :: bs => b.toNat + 256 * ofBytes bs

@[simp] theorem length_toBytes (n v : Nat) : (toBytes n v).length = n := by
  induction n generalizing v with
  | zero => rfl
  | succ n ih => simp [toBytes, ih]

theorem ofBytes_toBytes (n v : Nat) : ofBytes (toBytes n v) = v % 256 ^ n := by
  induction n generalizing v with
  | zero => simp [toBytes, ofBytes, Nat.mod_one]
  | succ n ih =>
      have hpow : 256 ^ (n + 1) = 256 * 256 ^ n := Nat.pow_succ'
      rw [toBytes, ofBytes, ih, BitVec.toNat_ofNat, hpow]
      exact (Nat.mod_mul (x := v) (a := 256) (b := 256 ^ n)).symm

theorem ofBytes_lt (bs : List (BitVec 8)) : ofBytes bs < 256 ^ bs.length := by
  induction bs with
  | nil => exact Nat.one_pos
  | cons b bs ih =>
      have hb := b.isLt
      have hpow : 256 ^ (bs.length + 1) = 256 * 256 ^ bs.length := Nat.pow_succ'
      rw [ofBytes, List.length_cons, hpow]
      omega

theorem toBytes_ofBytes (bs : List (BitVec 8)) : toBytes bs.length (ofBytes bs) = bs := by
  induction bs with
  | nil => rfl
  | cons b bs ih =>
      have hb := b.isLt
      have hbyte : BitVec.ofNat 8 (b.toNat + 256 * ofBytes bs) = b := by
        apply BitVec.eq_of_toNat_eq
        rw [BitVec.toNat_ofNat]
        omega
      have hrest : (b.toNat + 256 * ofBytes bs) / 256 = ofBytes bs := by omega
      rw [ofBytes, List.length_cons, toBytes, hbyte, hrest, ih]

theorem ofBytes_toBytes_of_lt {n v : Nat} (h : v < 256 ^ n) : ofBytes (toBytes n v) = v := by
  rw [ofBytes_toBytes, Nat.mod_eq_of_lt h]

/-! ## Readers -/

variable {ε σ α β : Type}

/-- The reader reads exactly the input and gives the value. -/
def Reads (d : StateT (List σ) (Except ε) α) (input : List σ) (a : α) : Prop :=
  ∀ rest, d.run (input ++ rest) = .ok (a, rest)

/-- The reader fails on the input. -/
def Rejects (d : StateT (List σ) (Except ε) α) (input : List σ) : Prop :=
  ∀ rest a s, d.run (input ++ rest) ≠ .ok (a, s)

variable {d : StateT (List σ) (Except ε) α} {f : α → StateT (List σ) (Except ε) β} {input input' : List σ} {a : α} {b : β}

theorem Reads.pure (a : α) : Reads (Pure.pure a : StateT (List σ) (Except ε) α) [] a := fun _ => rfl

theorem Reads.bind (hd : Reads d input a) (hf : Reads (f a) input' b) : Reads (d >>= f) (input ++ input') b := by
  intro rest
  rw [StateT.run_bind, List.append_assoc, hd]
  exact hf rest

theorem Reads.map (hd : Reads d input a) (g : α → β) : Reads (g <$> d) input (g a) := by
  intro rest
  rw [StateT.run_map, hd]
  rfl

theorem Rejects.left (hd : Rejects d input) : Rejects (d >>= f) input := by
  intro rest b s h
  rw [StateT.run_bind] at h
  cases hr : d.run (input ++ rest) with
  | ok p => exact hd rest p.1 p.2 hr
  | error e =>
      rw [hr] at h
      cases h

theorem Rejects.right (hd : Reads d input a) (hf : Rejects (f a) input') : Rejects (d >>= f) (input ++ input') := by
  intro rest b s h
  rw [StateT.run_bind, List.append_assoc, hd] at h
  exact hf rest b s h

theorem Rejects.append (h : Rejects d input) (input' : List σ) : Rejects d (input ++ input') := by
  intro rest a s
  rw [List.append_assoc]
  exact h (input' ++ rest) a s

theorem Reads.not_rejects (hd : Reads d input a) : ¬ Rejects d input := fun h => h [] a [] (hd [])

/-- The values a reader reads when it is run the given number of times. -/
def readMany (d : StateT (List σ) (Except ε) α) : Nat → StateT (List σ) (Except ε) (List α)
  | 0 => Pure.pure []
  | n + 1 => do
    let a ← d
    let as ← readMany d n
    return a :: as

theorem Reads.many {as : List α} {inputs : List (List σ)} (h : List.Forall₂ (fun a input => Reads d input a) as inputs) :
    Reads (readMany d as.length) inputs.flatten as := by
  induction h with
  | nil => exact Reads.pure []
  | cons ha _ ih =>
      rw [List.flatten_cons, ← List.append_nil (List.flatten _)]
      exact ha.bind (ih.bind (Reads.pure _))

/-- One input that is rejected is enough for all of them to be rejected. -/
theorem Rejects.many {as : List α} {inputs : List (List σ)}
    (h : List.Forall₂ (fun a input => Reads d input a ∨ Rejects d input) as inputs)
    (hd : ∃ input ∈ inputs, Rejects d input) : Rejects (readMany d as.length) inputs.flatten := by
  induction h with
  | nil =>
      obtain ⟨input, hmem, -⟩ := hd
      cases hmem
  | cons ha _ ih =>
      rw [List.flatten_cons]
      rcases ha with ha | ha
      · obtain ⟨input, hmem, hrej⟩ := hd
        cases hmem with
        | head => exact absurd hrej ha.not_rejects
        | tail _ hmem => exact Rejects.right ha (ih ⟨input, hmem, hrej⟩).left
      · exact (ha.append _).left

/-- The given number of elements of a stream. -/
def readExactly (e : ε) (n : Nat) : StateT (List σ) (Except ε) (List σ) := fun s =>
  if n ≤ s.length then .ok (s.take n, s.drop n) else .error e

theorem readExactly_run (e : ε) (n : Nat) (s : List σ) : (readExactly e n).run s =
    if n ≤ s.length then .ok (s.take n, s.drop n) else .error e := rfl

theorem readExactly_reads (e : ε) (input : List σ) : Reads (readExactly e input.length) input input := by
  intro rest
  simp [readExactly, StateT.run]

/-! ## Formats

A format relates inputs to the values that are read from them. -/

section Formats

variable {P : List σ → α → Prop} {R : List σ → β → Prop} {E : ε → Prop}

/-- What the reader reads is in the format. -/
def Accepts (d : StateT (List σ) (Except ε) α) (P : List σ → α → Prop) : Prop :=
  ∀ s a s', d.run s = .ok (a, s') → ∃ input, s = input ++ s' ∧ P input a

/-- The reader fails with such errors only. -/
def Raises (d : StateT (List σ) (Except ε) α) (E : ε → Prop) : Prop := ∀ s e, d.run s = .error e → E e

/-- A value of the given size takes at least as many elements of the stream. -/
def Consumes (d : StateT (List σ) (Except ε) α) (size : α → Nat) : Prop :=
  ∀ s a s', d.run s = .ok (a, s') → size a + s'.length ≤ s.length

theorem bind_run (d : StateT (List σ) (Except ε) α) (f : α → StateT (List σ) (Except ε) β) (s : List σ) :
    (∃ e, d.run s = .error e ∧ (d >>= f).run s = .error e) ∨
    ∃ a s', d.run s = .ok (a, s') ∧ (d >>= f).run s = (f a).run s' := by
  rw [StateT.run_bind]
  cases d.run s with
  | error e => exact .inl ⟨e, rfl, rfl⟩
  | ok p => exact .inr ⟨p.1, p.2, rfl, rfl⟩

theorem Accepts.pure {a : α} (h : P [] a) : Accepts (Pure.pure a : StateT (List σ) (Except ε) α) P := by
  intro s a' s' hs
  obtain ⟨rfl, rfl⟩ := Prod.mk.inj (Except.ok.inj hs)
  exact ⟨[], rfl, h⟩

theorem Accepts.bind (hd : Accepts d P) (hf : ∀ input a, P input a → Accepts (f a) fun input' b => R (input ++ input') b) :
    Accepts (d >>= f) R := by
  intro s b s' h
  rcases bind_run d f s with ⟨e, -, he⟩ | ⟨a, t, ha, hb⟩
  · rw [he] at h
    cases h
  · obtain ⟨input, rfl, hP⟩ := hd s a t ha
    obtain ⟨input', rfl, hR⟩ := hf input a hP t b s' (hb ▸ h)
    exact ⟨input ++ input', (List.append_assoc ..).symm, hR⟩

theorem Accepts.consumes {size : α → Nat} (hd : Accepts d P) (h : ∀ input a, P input a → size a ≤ input.length) :
    Consumes d size := by
  intro s a s' hs
  obtain ⟨input, rfl, hP⟩ := hd s a s' hs
  rw [List.length_append]
  exact Nat.add_le_add_right (h _ _ hP) _

theorem Consumes.pure (a : α) : Consumes (Pure.pure a : StateT (List σ) (Except ε) α) fun _ => 0 := by
  intro s a' s' h
  obtain ⟨rfl, rfl⟩ := Prod.mk.inj (Except.ok.inj h)
  exact (Nat.zero_add _).le

theorem Consumes.bind {i j : Nat} (hd : Consumes d fun _ => i) (hf : ∀ a, Consumes (f a) fun _ => j) :
    Consumes (d >>= f) fun _ => i + j := by
  intro s b s' h
  rcases bind_run d f s with ⟨e, -, he⟩ | ⟨a, t, ha, hb⟩
  · rw [he] at h
    cases h
  · have hfirst : i + t.length ≤ s.length := hd s a t ha
    have hrest : j + s'.length ≤ t.length := hf a t b s' (hb ▸ h)
    change i + j + s'.length ≤ s.length
    omega

theorem Consumes.many (hd : Consumes d fun _ => 0) (n : Nat) : Consumes (readMany d n) fun _ => 0 := by
  induction n with
  | zero => exact .pure []
  | succ n ih => exact hd.bind fun a => ih.bind fun as => .pure (a :: as)

/-- The values that are read one after another are in the format one by one. -/
theorem Accepts.many (hd : Accepts d P) (n : Nat) : Accepts (readMany d n) fun input as =>
    ∃ parts : List (List σ × α), parts.length = n ∧ (∀ p ∈ parts, P p.1 p.2) ∧ input = (parts.map Prod.fst).flatten ∧
      as = parts.map Prod.snd := by
  induction n with
  | zero => exact .pure ⟨[], rfl, fun p hp => absurd hp List.not_mem_nil, rfl, rfl⟩
  | succ n ih =>
      refine hd.bind fun input a hP => ih.bind fun input' as hparts => .pure ?_
      obtain ⟨parts, rfl, hparts, rfl, rfl⟩ := hparts
      refine ⟨(input, a) :: parts, rfl, ?_, ?_, rfl⟩
      · rintro p hp
        cases hp with
        | head => exact hP
        | tail _ hp => exact hparts p hp
      · rw [List.append_nil, List.map_cons, List.flatten_cons]

theorem readExactly_accepts (e : ε) (n : Nat) : Accepts (readExactly e n) fun input (a : List σ) => a = input ∧ a.length = n := by
  intro s a s' h
  rw [readExactly_run] at h
  split at h
  · next hn =>
      obtain ⟨rfl, rfl⟩ := Prod.mk.inj (Except.ok.inj h)
      exact ⟨s.take n, (List.take_append_drop n s).symm, rfl, List.length_take_of_le hn⟩
  · cases h

theorem Raises.pure (a : α) : Raises (Pure.pure a : StateT (List σ) (Except ε) α) E := by
  intro s e h
  cases h

theorem Raises.bind (hd : Raises d E) (hf : ∀ a, Raises (f a) E) : Raises (d >>= f) E := by
  intro s e h
  rcases bind_run d f s with ⟨e', he', h'⟩ | ⟨a, s', -, h'⟩
  · rw [h'] at h
    exact Except.error.inj h ▸ hd s e' he'
  · exact hf a s' e (h' ▸ h)

theorem Raises.many (hd : Raises d E) (n : Nat) : Raises (readMany d n) E := by
  induction n with
  | zero => exact .pure []
  | succ n ih => exact hd.bind fun a => ih.bind fun as => .pure (a :: as)

theorem readExactly_raises {e : ε} (n : Nat) (h : E e) : Raises (readExactly e n : StateT (List σ) (Except ε) _) E := by
  intro s e' he
  rw [readExactly_run] at he
  split at he
  · cases he
  · exact Except.error.inj he ▸ h

/-- The readers agree on the streams of at most `k` elements. -/
def Agree (k : Nat) (d d' : StateT (List σ) (Except ε) α) : Prop := ∀ s : List σ, s.length ≤ k → d.run s = d'.run s

variable {d' : StateT (List σ) (Except ε) α} {f' : α → StateT (List σ) (Except ε) β} {k j : Nat}

theorem Agree.refl (d : StateT (List σ) (Except ε) α) : Agree k d d := fun _ _ => rfl

/-- Less of the stream is left for the second reader. -/
theorem Agree.bind (hd : Agree k d d') (hc : Consumes d fun _ => j) (hf : ∀ a, Agree (k - j) (f a) (f' a)) :
    Agree k (d >>= f) (d' >>= f') := by
  intro s hs
  rw [StateT.run_bind, StateT.run_bind, ← hd s hs]
  cases hr : d.run s with
  | error e => rfl
  | ok p =>
      have hlen : j + p.2.length ≤ s.length := hc s p.1 p.2 hr
      exact hf p.1 p.2 (by omega)

theorem Agree.many (hd : Agree k d d') (hc : Consumes d fun _ => 0) (n : Nat) : Agree k (readMany d n) (readMany d' n) := by
  induction n with
  | zero => exact .refl _
  | succ n ih => exact hd.bind hc fun a => ih.bind (hc.many n) fun as => .refl _

end Formats

end CompilerLab.Lib
