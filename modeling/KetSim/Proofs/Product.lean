import KetSim.Proofs.Exact
import KetSim.Proofs.LabelSemantics
/-!
# Circuits side by side

Two circuits that act on different qubits do not notice each other. Put on one register, the second
behind the first, and with their operations mixed in any way that keeps the order of each, they give
every label the product of the two coefficients of its halves (`Engine.run_interleaving`). The index
of a pair of halves is `2 ^ m * a + b`: a qubit of the first half has its bit `m` places higher than
before, and one of the second half, whose index grew by `n`, has it where it was.
-/
namespace KetSim
open Index StateVector

/-! ## Operations side by side -/

/-- Two sequences merged into one, each in its own order. -/
inductive Interleaving {α : Type} : List α → List α → List α → Prop where
  | nil : Interleaving [] [] []
  | left {x : α} {xs ys zs : List α} : Interleaving xs ys zs → Interleaving (x :: xs) ys (x :: zs)
  | right {y : α} {xs ys zs : List α} : Interleaving xs ys zs → Interleaving xs (y :: ys) (y :: zs)

theorem Interleaving.nil_right {α : Type} (xs : List α) : Interleaving xs [] xs := by
  induction xs with
  | nil => exact .nil
  | cons x xs ih => exact .left ih

theorem Interleaving.mem_or {α : Type} {xs ys zs : List α} (hi : Interleaving xs ys zs) :
    ∀ z ∈ zs, z ∈ xs ∨ z ∈ ys := by
  induction hi with
  | nil => simp
  | left _ ih =>
    refine List.forall_mem_cons.2 ⟨.inl (by simp), fun z hz => ?_⟩
    exact (ih z hz).imp_left (List.mem_cons_of_mem _)
  | right _ ih =>
    refine List.forall_mem_cons.2 ⟨.inr (by simp), fun z hz => ?_⟩
    exact (ih z hz).imp_right (List.mem_cons_of_mem _)

/-- The qubit behind `n` others. -/
def Qubit.shift (n : Nat) (q : Qubit) : Qubit := ⟨q.index + n⟩

def Operation.shift (n : Nat) (op : Operation) : Operation :=
  ⟨op.gate, op.targets.map (Qubit.shift n)⟩

theorem Qubit.shift_injective (n : Nat) : Function.Injective (Qubit.shift n) := by
  rintro ⟨i⟩ ⟨j⟩ e
  simpa [shift] using e

theorem Operation.Fits.widen {n : Nat} {op : Operation} (hop : op.Fits n) (m : Nat) :
    op.Fits (n + m) :=
  ⟨hop.length_eq, fun q hq => Nat.lt_add_right m (hop.inside q hq), hop.nodup⟩

theorem Operation.Fits.shift {m : Nat} {op : Operation} (hop : op.Fits m) (n : Nat) :
    (op.shift n).Fits (n + m) :=
  hop.map (fun q hq => by simp only [Qubit.shift]; omega)
    fun _ _ _ _ e => Qubit.shift_injective n e

theorem Qubit.place_widen {n : Nat} {q : Qubit} (hq : q.index < n) (m : Nat) :
    q.place (n + m) = q.place n + m := by
  simp only [place]
  omega

theorem Qubit.place_shift (n m : Nat) (q : Qubit) : (q.shift n).place (n + m) = q.place m := by
  simp only [place, shift]
  omega

/-! ## Indices side by side -/

theorem Index.pair_lt {n m a b : Nat} (ha : a < 2 ^ n) (hb : b < 2 ^ m) :
    2 ^ m * a + b < 2 ^ (n + m) :=
  calc 2 ^ m * a + b
    _ < 2 ^ m * (a + 1) := by rw [Nat.mul_succ]; omega
    _ ≤ 2 ^ m * 2 ^ n := Nat.mul_le_mul_left _ ha
    _ = 2 ^ (n + m) := by rw [pow_add, Nat.mul_comm]

theorem Index.testBit_high {m b : Nat} (hb : b < 2 ^ m) (a k : Nat) :
    (2 ^ m * a + b).testBit (k + m) = a.testBit k := by
  rw [Nat.testBit_two_pow_mul_add a hb, if_neg (by omega), Nat.add_sub_cancel]

theorem Index.testBit_low_half {m b k : Nat} (hb : b < 2 ^ m) (hk : k < m) (a : Nat) :
    (2 ^ m * a + b).testBit k = b.testBit k := by
  rw [Nat.testBit_two_pow_mul_add a hb, if_pos hk]

theorem Index.flip_high {m b : Nat} (hb : b < 2 ^ m) (a k : Nat) :
    flip (k + m) (2 ^ m * a + b) = 2 ^ m * flip k a + b := by
  apply Nat.eq_of_testBit_eq
  intro j
  rw [testBit_flip, Nat.testBit_two_pow_mul_add a hb, Nat.testBit_two_pow_mul_add _ hb]
  by_cases hj : j < m
  · simp [hj, show k + m ≠ j by omega]
  · simp [hj, show k + m = j ↔ k = j - m by omega]

theorem Index.flip_low_half {m b k : Nat} (hb : b < 2 ^ m) (hk : k < m) (a : Nat) :
    flip k (2 ^ m * a + b) = 2 ^ m * a + flip k b := by
  apply Nat.eq_of_testBit_eq
  intro j
  rw [testBit_flip, Nat.testBit_two_pow_mul_add a hb,
    Nat.testBit_two_pow_mul_add a (flip_lt hk hb)]
  by_cases hj : j < m
  · simp [hj]
  · simp [hj, show k ≠ j by omega]

/-! ## Coefficients side by side -/

variable {h : ℝ}

/-- The coefficients of a register are the products of those of its halves. -/
def Factors (m : Nat) (f g F : Nat → Amplitude (Exact h)) : Prop :=
  ∀ a b, b < 2 ^ m → F (2 ^ m * a + b) = f a * g b

theorem Amplitude.mul_add_mul_left (x y a b c : Amplitude (Exact h)) :
    x * (a * c) + y * (b * c) = (x * a + y * b) * c := by
  apply value_injective
  simp only [value_add, value_mul]
  ring

theorem Amplitude.mul_add_mul_right (x y a b c : Amplitude (Exact h)) :
    x * (c * a) + y * (c * b) = c * (x * a + y * b) := by
  apply value_injective
  simp only [value_add, value_mul]
  ring

namespace Factors
variable {m : Nat} {f g F : Nat → Amplitude (Exact h)}

theorem zeroDigits : Factors m zeroDigits zeroDigits (zeroDigits : Nat → Amplitude (Exact h)) := by
  intro a b _
  apply Amplitude.value_injective
  have hpos := Nat.two_pow_pos m
  by_cases ha : a = 0 <;> by_cases hb : b = 0 <;> simp [KetSim.zeroDigits, ha, hb]

theorem mixed_high (hF : Factors m f g F) (M : Gate.Matrix (Amplitude (Exact h))) (k : Nat) :
    Factors m (mixed M k f) g (mixed M (k + m) F) := by
  intro a b hb
  simp only [mixed, testBit_high hb, flip_high hb, hF _ b hb]
  split <;> exact Amplitude.mul_add_mul_left ..

theorem mixed_low (hF : Factors m f g F) (M : Gate.Matrix (Amplitude (Exact h))) {k : Nat}
    (hk : k < m) : Factors m f (mixed M k g) (mixed M k F) := by
  intro a b hb
  simp only [mixed, testBit_low_half hb hk, flip_low_half hb hk, hF a b hb,
    hF a _ (flip_lt hk hb)]
  split <;> exact Amplitude.mul_add_mul_right ..

theorem act_widen {n : Nat} (hF : Factors m f g F) {op : Operation} (hop : op.Fits n) :
    Factors m (op.act n f) g (op.act (n + m) F) := by
  rcases hop.cases with ⟨G, q, rfl, hG, hq⟩ | ⟨c, t, rfl, hc, ht, -⟩
  · rw [Operation.act_single hG, Operation.act_single hG, Qubit.place_widen hq]
    exact hF.mixed_high _ _
  · intro a b hb
    have := hF.mixed_high Gate.cnot.matrix (t.place n) a b hb
    simp only [Operation.act_cnot, Qubit.place_widen hc, Qubit.place_widen ht, mixedWhere,
      testBit_high hb, this, hF a b hb]
    split <;> rfl

theorem act_shift (hF : Factors m f g F) {op : Operation} (hop : op.Fits m) (n : Nat) :
    Factors m f (op.act m g) ((op.shift n).act (n + m) F) := by
  rcases hop.cases with ⟨G, q, rfl, hG, hq⟩ | ⟨c, t, rfl, hc, ht, -⟩
  · show Factors m f _ ((Operation.single G (q.shift n)).act (n + m) F)
    rw [Operation.act_single hG, Operation.act_single hG, Qubit.place_shift]
    exact hF.mixed_low _ (Qubit.place_lt hq)
  · intro a b hb
    have := hF.mixed_low Gate.cnot.matrix (Qubit.place_lt ht) a b hb
    show (Operation.cnot (c.shift n) (t.shift n)).act (n + m) F _ = _
    simp only [Operation.act_cnot, Qubit.place_shift, mixedWhere,
      testBit_low_half hb (Qubit.place_lt hc), this, hF a b hb]
    split <;> rfl

/-- Operations of both halves, mixed in any way, act on each half as they would alone. -/
theorem evolve_interleaving {n : Nat} {xs ys zs : List Operation}
    (hi : Interleaving xs (ys.map (Operation.shift n)) zs) (hxs : ∀ op ∈ xs, op.Fits n)
    (hys : ∀ op ∈ ys, op.Fits m) (hF : Factors m f g F) :
    Factors m (evolve n xs f) (evolve m ys g) (evolve (n + m) zs F) := by
  generalize hshifted : ys.map (Operation.shift n) = shifted at hi
  induction hi generalizing ys f g F with
  | nil =>
    obtain rfl := List.map_eq_nil_iff.1 hshifted
    exact hF
  | @left op xs _ zs _ ih =>
    obtain ⟨hop, hrest⟩ := List.forall_mem_cons.1 hxs
    exact ih hrest hys (hF.act_widen hop) hshifted
  | @right _ xs _ zs _ ih =>
    obtain ⟨op, ys, rfl, rfl, hrest⟩ := List.map_eq_cons_iff.1 hshifted
    obtain ⟨hop, hys⟩ := List.forall_mem_cons.1 hys
    have rest := ih hxs hys (hF.act_shift hop n) hrest
    exact rest

end Factors

/-- The circuit of two circuits side by side has the products of their coefficients. -/
theorem Circuit.factors_amplitude {c d : Circuit} (hc : c.Valid) (hd : d.Valid)
    {ops : List Operation}
    (hi : Interleaving c.operations (d.operations.map (Operation.shift c.width)) ops) :
    Factors d.width c.amplitude d.amplitude
      (amplitude ⟨c.width + d.width, ops⟩ : Nat → Amplitude (Exact h)) :=
  Factors.zeroDigits.evolve_interleaving hi hc.fits hd.fits

theorem Circuit.valid_interleaving {c d : Circuit} (hc : c.Valid) (hd : d.Valid)
    {ops : List Operation}
    (hi : Interleaving c.operations (d.operations.map (Operation.shift c.width)) ops) :
    Valid ⟨c.width + d.width, ops⟩ := by
  refine ⟨Nat.add_pos_left hc.width_pos _, fun op hop => ?_⟩
  rcases hi.mem_or op hop with hop | hop
  · exact (hc.fits op hop).widen d.width
  · obtain ⟨behind, hbehind, rfl⟩ := List.mem_map.1 hop
    exact (hd.fits behind hbehind).shift c.width

/-- Qubits that nobody uses stay zero and change nothing. -/
theorem Circuit.amplitude_widen {c : Circuit} (hc : c.Valid) {m : Nat} (hm : 0 < m) (a : Nat)
    {b : Nat} (hb : b < 2 ^ m) :
    (amplitude ⟨c.width + m, c.operations⟩ (2 ^ m * a + b) : Amplitude (Exact h)) =
      if b = 0 then c.amplitude a else 0 := by
  have hidle : Valid ⟨m, []⟩ := ⟨hm, by simp⟩
  have := factors_amplitude (h := h) hc hidle (Interleaving.nil_right c.operations) a b hb
  rw [this, show amplitude ⟨m, []⟩ b = zeroDigits b from rfl]
  apply Amplitude.value_injective
  by_cases h0 : b = 0 <;> simp [zeroDigits, h0]

/-! ## Labels side by side -/

namespace Ket

/-- Two labels read as one, without the bracket of the first and the bar of the second. -/
def join (s t : String) : String := String.ofList (s.toList.dropLast ++ t.toList.tail)

theorem label_join {n m a b : Nat} (hn : 0 < n) (hm : 0 < m) (ha : a < 2 ^ n) (hb : b < 2 ^ m) :
    label (2 ^ m * a + b) (n + m) = join (label a n) (label b m) := by
  have high : (List.range n).map (fun q => digitOf ((2 ^ m * a + b).testBit (n + m - 1 - q))) =
      (List.range n).map fun q => digitOf (a.testBit (n - 1 - q)) := by
    refine List.map_congr_left fun q hq => ?_
    have := List.mem_range.1 hq
    rw [show n + m - 1 - q = n - 1 - q + m by omega, testBit_high hb]
  have low : ((List.range m).map (n + ·)).map
        (fun q => digitOf ((2 ^ m * a + b).testBit (n + m - 1 - q))) =
      (List.range m).map fun q => digitOf (b.testBit (m - 1 - q)) := by
    rw [List.map_map]
    refine List.map_congr_left fun q hq => ?_
    have := List.mem_range.1 hq
    rw [Function.comp_apply, show n + m - 1 - (n + q) = m - 1 - q by omega,
      testBit_low_half hb (by omega)]
  rw [← String.toList_inj, join, String.toList_ofList, toList_label (by omega) (pair_lt ha hb),
    toList_label hn ha, toList_label hm hb, List.range_add, List.map_append, high, low,
    List.dropLast_concat]
  simp

variable {c d : Circuit}

theorem at_join (hc : c.Valid) (hd : d.Valid) {ops : List Operation}
    (hi : Interleaving c.operations (d.operations.map (Operation.shift c.width)) ops)
    {s t : String} {a b : Amplitude (Exact h)} (hs : At c.finalState.amplitudes c.width s a)
    (ht : At d.finalState.amplitudes d.width t b) (x : Amplitude (Exact h)) :
    At (Circuit.finalState ⟨c.width + d.width, ops⟩).amplitudes (c.width + d.width) (join s t) x ↔
      x = a * b := by
  obtain ⟨i, hi', rfl, rfl⟩ := at_finalState.1 hs
  obtain ⟨j, hj, rfl, rfl⟩ := at_finalState.1 ht
  rw [← label_join hc.width_pos hd.width_pos hi' hj]
  exact at_finalState_iff (at_finalState.2
    ⟨_, pair_lt hi' hj, rfl, Circuit.factors_amplitude hc hd hi i j hj⟩) x

theorem at_widen (hc : c.Valid) {m : Nat} (hm : 0 < m) {s : String} {a : Amplitude (Exact h)}
    (hs : At c.finalState.amplitudes c.width s a) (x : Amplitude (Exact h)) :
    At (Circuit.finalState ⟨c.width + m, c.operations⟩).amplitudes (c.width + m)
      (join s (allZeros m)) x ↔ x = a := by
  obtain ⟨i, hi, rfl, rfl⟩ := at_finalState.1 hs
  have hpos := Nat.two_pow_pos m
  rw [← label_zero hm, ← label_join hc.width_pos hm hi hpos]
  exact at_finalState_iff (at_finalState.2 ⟨_, pair_lt hi hpos, rfl,
    (Circuit.amplitude_widen hc hm i hpos).trans (if_pos rfl)⟩) x

theorem at_widen_cases (hc : c.Valid) {m : Nat} (hm : 0 < m) {s : String}
    {a : Amplitude (Exact h)}
    (hs : At (Circuit.finalState ⟨c.width + m, c.operations⟩).amplitudes (c.width + m) s a) :
    (∃ t, At c.finalState.amplitudes c.width t a ∧ s = join t (allZeros m)) ∨ a = 0 := by
  obtain ⟨i, hi, rfl, rfl⟩ := at_finalState.1 hs
  have hpos := Nat.two_pow_pos m
  have hlow : i % 2 ^ m < 2 ^ m := Nat.mod_lt i hpos
  have hhigh : i / 2 ^ m < 2 ^ c.width := by
    rw [Nat.div_lt_iff_lt_mul hpos, ← pow_add]
    exact hi
  have hamp := Circuit.amplitude_widen (h := h) hc hm (i / 2 ^ m) hlow
  have hlabel := label_join hc.width_pos hm hhigh hlow
  rw [Nat.div_add_mod] at hamp hlabel
  by_cases h0 : i % 2 ^ m = 0
  · rw [if_pos h0] at hamp
    rw [h0, label_zero hm] at hlabel
    exact .inl ⟨_, at_finalState.2 ⟨_, hhigh, rfl, hamp.symm⟩, hlabel⟩
  · exact .inr (hamp.trans (if_neg h0))

end Ket

/-! ## Runs side by side -/

namespace Engine

/-- **Circuits side by side do not notice each other.** However the operations of two checked
circuits are mixed, the second circuit standing behind the first, every label has the product of
the coefficients of its halves. So a register that is widened by qubits nobody uses keeps every
coefficient at the label padded with zeros, and has zero at all other labels. -/
theorem run_interleaving {e : Engine (Exact h)} (he : e.settings.validate = .ok ()) {c : Circuit}
    (hc : c.check (R := Exact h) = .ok ()) :
    (∀ (d : Circuit) (ops : List Operation), d.check (R := Exact h) = .ok () →
      Interleaving c.operations (d.operations.map (Operation.shift c.width)) ops →
      c.width + d.width ≤ e.settings.maxQubits →
      2 ^ (c.width + d.width) ≤ StateVector.maxEntries →
      ∃ first second both, (e.backend.run c).result = .ok first ∧
        (e.backend.run d).result = .ok second ∧
        (e.backend.run ⟨c.width + d.width, ops⟩).result = .ok both ∧
        ∀ s t a b, Ket.At first c.width s a → Ket.At second d.width t b →
          ∀ x, Ket.At both (c.width + d.width) (Ket.join s t) x ↔ x = a * b) ∧
    (∀ m, 1 ≤ m → c.width + m ≤ e.settings.maxQubits →
      2 ^ (c.width + m) ≤ StateVector.maxEntries →
      ∃ narrow wide, (e.backend.run c).result = .ok narrow ∧
        (e.backend.run ⟨c.width + m, c.operations⟩).result = .ok wide ∧
        (∀ s a, Ket.At narrow c.width s a →
          ∀ x, Ket.At wide (c.width + m) (Ket.join s (Ket.allZeros m)) x ↔ x = a) ∧
        ∀ s a, Ket.At wide (c.width + m) s a →
          (∃ t, Ket.At narrow c.width t a ∧ s = Ket.join t (Ket.allZeros m)) ∨ a = 0) := by
  have hq : e.settings.maxQubits ≤ 63 := (Settings.maxQubits_of_validate he).2
  have hcv : c.Valid := Circuit.check_eq_ok_iff.1 hc
  have smaller {k n : Nat} (hk : k ≤ n) (hn : 2 ^ n ≤ StateVector.maxEntries) :
      2 ^ k ≤ StateVector.maxEntries := (Nat.pow_le_pow_right (by omega) hk).trans hn
  constructor
  · intro d ops hd hi hw hmem
    have hdv : d.Valid := Circuit.check_eq_ok_iff.1 hd
    exact ⟨_, _, _, run_valid hq hcv (by omega) (smaller (by omega) hmem),
      run_valid hq hdv (by omega) (smaller (by omega) hmem),
      run_valid hq (Circuit.valid_interleaving hcv hdv hi) hw hmem,
      fun s t a b hs ht => Ket.at_join hcv hdv hi hs ht⟩
  · intro m hm hw hmem
    have hidle : Circuit.Valid ⟨m, []⟩ := ⟨hm, by simp⟩
    exact ⟨_, _, run_valid hq hcv (by omega) (smaller (by omega) hmem),
      run_valid hq (Circuit.valid_interleaving hcv hidle (.nil_right _)) hw hmem,
      fun s a hs => Ket.at_widen hcv hm hs, fun s a hs => Ket.at_widen_cases hcv hm hs⟩

/-- An entangled pair and a flipped qubit behind it, whose flip comes between the operations of the
pair. -/
theorem run_interleaving_entangled :
    let e : Engine (Exact (√2)⁻¹) := ⟨Exact.settings⟩
    let c : Circuit := ⟨2, [.single .h ⟨1⟩, .cnot ⟨1⟩ ⟨0⟩]⟩
    (∃ first second both, (e.backend.run c).result = .ok first ∧
      (e.backend.run ⟨1, [.single .x ⟨0⟩]⟩).result = .ok second ∧
      (e.backend.run ⟨3, [.single .h ⟨1⟩, .single .x ⟨2⟩, .cnot ⟨1⟩ ⟨0⟩]⟩).result = .ok both ∧
      ∀ s t a b, Ket.At first 2 s a → Ket.At second 1 t b →
        ∀ x, Ket.At both 3 (Ket.join s t) x ↔ x = a * b) ∧
    ∃ narrow wide, (e.backend.run c).result = .ok narrow ∧
      (e.backend.run ⟨5, c.operations⟩).result = .ok wide ∧
      (∀ s a, Ket.At narrow 2 s a → ∀ x, Ket.At wide 5 (Ket.join s (Ket.allZeros 3)) x ↔ x = a) ∧
      ∀ s a, Ket.At wide 5 s a →
        (∃ t, Ket.At narrow 2 t a ∧ s = Ket.join t (Ket.allZeros 3)) ∨ a = 0 := by
  intro e c
  obtain ⟨mixed, widened⟩ :=
    run_interleaving (e := e) (c := c) Exact.validate_settings rfl
  exact ⟨mixed ⟨1, [.single .x ⟨0⟩]⟩ _ rfl (.left (.right (.left .nil))) (by decide) (by decide),
    widened 3 (by decide) (by decide) (by decide)⟩

end Engine

end KetSim
