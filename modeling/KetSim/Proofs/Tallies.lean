import KetSim.Proofs.Draws
import Mathlib.Data.List.Nodup
/-!
# Tallies

A tally lists each label that was drawn once, with its count (`Tally.Proper`), and the counts add up
to the number of draws. Sampling draws shot by shot: one shot more counts one label once more and
changes nothing else, and this label belongs to an outcome that is not impossible
(`Distribution.sampleCounts_succ`). So no count passes the number of shots.
-/
namespace KetSim

/-! ## Counting -/

namespace Tally

def total (t : Tally) : Nat := (t.map Prod.snd).sum

/-- Every label is listed once, with a count that is not zero. -/
structure Proper (t : Tally) : Prop where
  nodup : (t.map Prod.fst).Nodup
  pos : ∀ p ∈ t, 0 < p.2

theorem count_bump (l label : String) (t : Tally) :
    (t.bump label).count l = t.count l + if l = label then 1 else 0 := by
  induction t with
  | nil => simp [bump, count, eq_comm]
  | cons p t ih =>
    obtain ⟨k, n⟩ := p
    by_cases hk : k = label
    · subst hk
      by_cases hl : k = l
      · simp [bump, count, hl]
      · simp [bump, count, hl, Ne.symm hl]
    · by_cases hl : k = l
      · simp [bump, count, hl, hl ▸ hk]
      · simp [bump, count, hk, hl, ih]

theorem total_bump (label : String) (t : Tally) : (t.bump label).total = t.total + 1 := by
  induction t with
  | nil => rfl
  | cons p t ih =>
    obtain ⟨k, n⟩ := p
    by_cases hk : k = label
    · simp [bump, total, hk]
      omega
    · simp only [total] at ih
      simp [bump, total, hk, ih]
      omega

/-- What is listed after a label was counted. -/
theorem mem_bump {label : String} {t : Tally} {p : String × Nat} (hp : p ∈ t.bump label) :
    p ∈ t ∨ p.1 = label ∧ 0 < p.2 := by
  induction t with
  | nil =>
    rw [bump, List.mem_singleton] at hp
    exact .inr (by simp [hp])
  | cons q t ih =>
    obtain ⟨k, n⟩ := q
    rw [bump] at hp
    split at hp
    · rename_i hk
      rcases List.mem_cons.1 hp with rfl | hp
      · exact .inr ⟨hk, Nat.succ_pos n⟩
      · exact .inl (List.mem_cons_of_mem _ hp)
    · rcases List.mem_cons.1 hp with rfl | hp
      · exact .inl List.mem_cons_self
      · exact (ih hp).imp_left (List.mem_cons_of_mem _)

theorem Proper.bump {t : Tally} (ht : t.Proper) (label : String) : (t.bump label).Proper := by
  refine ⟨?_, fun p hp => (mem_bump hp).elim (ht.pos p) And.right⟩
  obtain ⟨hnodup, -⟩ := ht
  induction t with
  | nil => simp [Tally.bump]
  | cons q t ih =>
    obtain ⟨k, n⟩ := q
    rw [List.map_cons, List.nodup_cons] at hnodup
    by_cases hk : k = label
    · rw [Tally.bump, if_pos hk, List.map_cons, List.nodup_cons]
      exact hnodup
    · rw [Tally.bump, if_neg hk, List.map_cons, List.nodup_cons]
      refine ⟨fun hmem => ?_, ih hnodup.2⟩
      obtain ⟨p, hp, hpk⟩ := List.mem_map.1 hmem
      rcases mem_bump hp with hp | ⟨hp, -⟩
      · exact hnodup.1 (hpk ▸ List.mem_map_of_mem hp)
      · exact hk (hpk.symm.trans hp)

/-- Each label is listed with its count. -/
theorem Proper.count_eq {t : Tally} (ht : t.Proper) {l : String} {n : Nat} (hp : (l, n) ∈ t) :
    t.count l = n := by
  obtain ⟨hnodup, -⟩ := ht
  induction t with
  | nil => cases hp
  | cons q t ih =>
    obtain ⟨k, m⟩ := q
    rw [List.map_cons, List.nodup_cons] at hnodup
    rcases List.mem_cons.1 hp with e | hp
    · cases e
      simp [count]
    · have hk : k ≠ l := by
        rintro rfl
        exact hnodup.1 (List.mem_map.2 ⟨(k, n), hp, rfl⟩)
      rw [count, if_neg hk]
      exact ih hp hnodup.2

theorem count_le_total (l : String) (t : Tally) : t.count l ≤ t.total := by
  induction t with
  | nil => exact Nat.le_refl 0
  | cons q t ih =>
    obtain ⟨k, n⟩ := q
    simp only [count, total, List.map_cons, List.sum_cons] at ih ⊢
    split <;> omega

end Tally

/-! ## Shots -/

namespace Distribution
variable {h : ℝ} {d : Distribution (Exact h)}

/-- There is no negative probability and some positive one. -/
structure Drawable (d : Distribution (Exact h)) : Prop where
  nonneg : ∀ e ∈ d.outcomes, 0 ≤ e.probability.real
  pos : ∃ e ∈ d.outcomes, 0 < e.probability.real

theorem exists_sampler_iff :
    (∃ s, Sampler.ofWeights? d.probabilities = some s) ↔ d.Drawable := by
  rw [Sampler.exists_ofWeights?_iff]
  constructor
  · rintro ⟨hall, w, hw, hpos⟩
    obtain ⟨e, he, rfl⟩ := List.mem_map.1 hw
    exact ⟨fun e he => hall _ (List.mem_map_of_mem he), e, he, hpos⟩
  · rintro ⟨hall, e, he, hpos⟩
    exact ⟨List.forall_mem_map.2 hall, _, List.mem_map_of_mem he, hpos⟩

/-- Of other distributions nothing is drawn. -/
theorem sampleCounts_of_not_drawable (hd : ¬ d.Drawable) (shots : Nat) (seed : UInt64) :
    d.sampleCounts shots seed = [] := by
  rw [sampleCounts]
  cases hs : Sampler.ofWeights? d.probabilities with
  | none => rfl
  | some s => exact absurd (exists_sampler_iff.1 ⟨s, hs⟩) hd

theorem sampleCounts_zero (d : Distribution (Exact h)) (seed : UInt64) :
    d.sampleCounts 0 seed = [] := by
  rw [sampleCounts]
  split <;> rfl

/-- One shot more counts the label of an outcome that is not impossible. -/
theorem sampleCounts_succ (hd : d.Drawable) (seed : UInt64) (shots : Nat) :
    ∃ e ∈ d.outcomes, 0 < e.probability.real ∧
      d.sampleCounts (shots + 1) seed = (d.sampleCounts shots seed).bump e.label := by
  obtain ⟨s, hs⟩ := exists_sampler_iff.2 hd
  obtain ⟨e, he, hpos, hdraw⟩ := drawOnce_eq_bump hs (d.draws s (Keystream.ofSeed seed) shots)
  refine ⟨e, he, hpos, ?_⟩
  simp only [sampleCounts, hs]
  exact congrArg Prod.fst hdraw

/-- What every shot keeps holds after all shots. -/
theorem sampleCounts_induction (hd : d.Drawable) (seed : UInt64) {P : Nat → Tally → Prop}
    (hzero : P 0 [])
    (hsucc : ∀ shots t, P shots t → ∀ e ∈ d.outcomes, 0 < e.probability.real →
      P (shots + 1) (t.bump e.label)) (shots : Nat) : P shots (d.sampleCounts shots seed) := by
  induction shots with
  | zero =>
    rw [sampleCounts_zero]
    exact hzero
  | succ shots ih =>
    obtain ⟨e, he, hpos, hshot⟩ := sampleCounts_succ hd seed shots
    rw [hshot]
    exact hsucc shots _ ih e he hpos

/-- What sampling under a seed gives, shot by shot. -/
structure Tallies (d : Distribution (Exact h)) (seed : UInt64) : Prop where
  start : d.sampleCounts 0 seed = []
  /-- One shot more counts the label of an outcome that is not impossible, and no other one. -/
  shot : ∀ shots, ∃ e ∈ d.outcomes, 0 < e.probability.real ∧
    d.sampleCounts (shots + 1) seed = (d.sampleCounts shots seed).bump e.label ∧
    ∀ label, (d.sampleCounts (shots + 1) seed).count label =
      (d.sampleCounts shots seed).count label + if label = e.label then 1 else 0
  /-- Whatever is drawn is the index of an outcome that is not impossible. -/
  index : ∀ s, Sampler.ofWeights? d.probabilities = some s → ∀ shots,
    let draw := (d.draws s (Keystream.ofSeed seed) shots).2.nextDraw.1
    ∃ hi : s.pick draw < d.outcomes.length, 0 < (d.outcomes[s.pick draw]).probability.real
  proper : ∀ shots, (d.sampleCounts shots seed).Proper
  /-- Each label is listed with its count. -/
  count_eq : ∀ shots label n, (label, n) ∈ d.sampleCounts shots seed →
    (d.sampleCounts shots seed).count label = n
  total_eq : ∀ shots, (d.sampleCounts shots seed).total = shots
  /-- No count needs more than the thirty-two bits of the number of shots. -/
  count_lt : ∀ shots < 2 ^ 32, ∀ label, (d.sampleCounts shots seed).count label < 2 ^ 32
  /-- Labels of impossible outcomes alone are not counted. -/
  count_eq_zero : ∀ shots label,
    (∀ e ∈ d.outcomes, e.label = label → ¬ 0 < e.probability.real) →
      (d.sampleCounts shots seed).count label = 0

theorem tallies_of_drawable (hd : d.Drawable) (seed : UInt64) : d.Tallies seed :=
  have hproper := sampleCounts_induction hd seed (P := fun _ t => t.Proper)
    ⟨List.nodup_nil, fun _ hp => nomatch hp⟩ fun _ t ht e _ _ => ht.bump e.label
  have htotal : ∀ shots, (d.sampleCounts shots seed).total = shots :=
    sampleCounts_induction hd seed (P := fun shots t => t.total = shots) rfl
      fun shots t ht e _ _ => by rw [Tally.total_bump, ht]
  { start := sampleCounts_zero d seed
    shot shots := by
      obtain ⟨e, he, hpos, hshot⟩ := sampleCounts_succ hd seed shots
      exact ⟨e, he, hpos, hshot, fun label => by rw [hshot, Tally.count_bump]⟩
    index s hs shots := by
      obtain ⟨e, he, hpos⟩ := exists_pos_at_draw hs (d.draws s (Keystream.ofSeed seed) shots).2
      obtain ⟨hi, rfl⟩ := List.getElem?_eq_some_iff.1 he
      exact ⟨hi, hpos⟩
    proper := hproper
    count_eq shots label n hmem := (hproper shots).count_eq hmem
    total_eq := htotal
    count_lt shots hshots label := by
      have hle := Tally.count_le_total label (d.sampleCounts shots seed)
      rw [htotal] at hle
      omega
    count_eq_zero shots label hlabel :=
      sampleCounts_induction hd seed (P := fun _ t => t.count label = 0) rfl
        (fun _ t ht e he hpos => by
          rw [Tally.count_bump, ht, if_neg fun hl => hlabel e he hl.symm hpos]) shots }

/-- **Shots are counted one by one.** With no negative probability and some positive one, every shot
counts one label of an outcome that is not impossible, so the counts add up to the number of shots;
with others nothing is counted. -/
theorem sampleCounts_lawful (d : Distribution (Exact h)) (seed : UInt64) :
    (d.Drawable → d.Tallies seed) ∧
      (¬ d.Drawable → ∀ shots, d.sampleCounts shots seed = []) :=
  ⟨fun hd => tallies_of_drawable hd seed,
    fun hd shots => sampleCounts_of_not_drawable hd shots seed⟩

/-- Impossible outcomes first, between and last, and one that shares its label; and then one that is
less than impossible. -/
theorem sampleCounts_lawful_zeros :
    let e (i : Nat) (label : String) (p : ℝ) : Outcome (Exact (√2)⁻¹) := ⟨i, label, 0, ⟨p⟩⟩
    let d : Distribution (Exact (√2)⁻¹) :=
      ⟨2, [e 0 "a" 0, e 1 "b" 1, e 2 "c" 0, e 3 "b" 0, e 4 "d" 2, e 5 "a" 0]⟩
    (d.Drawable ∧ d.Tallies 7) ∧
      ∀ shots, (⟨2, e 6 "f" (-1) :: d.outcomes⟩ : Distribution _).sampleCounts shots 7 = [] := by
  intro e d
  have hd : d.Drawable := ⟨by simp [d, e], e 1 "b" 1, by simp [d], by simp [e]⟩
  have hnot : ¬ Drawable ⟨2, e 6 "f" (-1) :: d.outcomes⟩ := fun hd => by
    have := hd.nonneg _ List.mem_cons_self
    norm_num [e] at this
  exact ⟨⟨hd, (sampleCounts_lawful d 7).1 hd⟩, (sampleCounts_lawful _ 7).2 hnot⟩

end Distribution

end KetSim
