import KetSim.Distribution
import Mathlib.Order.Lattice
/-!
# The most probable outcome

The list of outcomes is gone through once, and of two outcomes the more probable one is kept, of
equals the one that was kept so far. On scalars that are ordered (`Scalar.Ordered`) the outcome that
is kept leads all that were seen (`Leads.concat` for one step, `Leads.append` for the rest of the
list): none is more probable, and those before it are less probable. There is one such outcome and
no other in a list, so this says which outcome is the most probable one (`picksFirst`).
-/
namespace KetSim

variable {R : Type} [Scalar R]

/-- The scalars with the property `P` are compared as what they stand for in a linear order. -/
structure Scalar.Ordered {α : Type} [LinearOrder α] (P : R → Prop) (value : R → α) : Prop where
  le_iff : ∀ {x y}, P x → P y → (Scalar.le x y = true ↔ value x ≤ value y)
  lt_iff : ∀ {x y}, P x → P y → (Scalar.lt x y = true ↔ value x < value y)

namespace Distribution

/-- The outcome at an index leads the list: none is more probable, and every one before it is less
probable. -/
structure Leads (es : List (Outcome R)) (k : Nat) (o : Outcome R) : Prop where
  getElem?_eq : es[k]? = some o
  le : ∀ e ∈ es, Scalar.le e.probability o.probability = true
  lt : ∀ i < k, ∀ e, es[i]? = some e → Scalar.lt e.probability o.probability = true

/-- The most probable outcome is the one that leads. Only where there are no outcomes is there
none. -/
structure PicksFirst (d : Distribution R) : Prop where
  none_iff : d.mostLikely? = none ↔ d.outcomes = []
  some_iff : ∀ o, d.mostLikely? = some o ↔ ∃ k, Leads d.outcomes k o

variable {es rest : List (Outcome R)} {best next o p : Outcome R} {k l : Nat}

theorem Leads.mem (h : Leads es k o) : o ∈ es := List.mem_of_getElem? h.getElem?_eq

section
variable {α : Type} [LinearOrder α] {P : R → Prop} {value : R → α}
  (hord : Scalar.Ordered P value)
include hord

/-- What leads a list is not behind anything else that leads it. -/
theorem Leads.le_index (hes : ∀ e ∈ es, P e.probability) (ho : Leads es k o) (hp : Leads es l p) :
    k ≤ l := by
  by_contra hlt
  have hless := (hord.lt_iff (hes p hp.mem) (hes o ho.mem)).1 (ho.lt l (by omega) p hp.getElem?_eq)
  have hmost := (hord.le_iff (hes o ho.mem) (hes p hp.mem)).1 (hp.le o ho.mem)
  exact absurd hmost (not_le.2 hless)

/-- Only one outcome leads a list. -/
theorem Leads.unique (hes : ∀ e ∈ es, P e.probability) (ho : Leads es k o) (hp : Leads es l p) :
    o = p := by
  obtain rfl : k = l := Nat.le_antisymm (ho.le_index hord hes hp) (hp.le_index hord hes ho)
  exact Option.some.inj (ho.getElem?_eq.symm.trans hp.getElem?_eq)

/-- One more outcome: either the leader stays, or the new one is more probable than all. -/
theorem Leads.concat (hes : ∀ e ∈ es, P e.probability) (hnext : P next.probability)
    (h : Leads es k best) : ∃ l, Leads (es ++ [next]) l (likelier best next) := by
  have hbest := hes best h.mem
  have hk : k < es.length := (List.getElem?_eq_some_iff.1 h.getElem?_eq).1
  by_cases hle : value next.probability ≤ value best.probability
  · have hkeep : Scalar.le next.probability best.probability = true :=
      (hord.le_iff hnext hbest).2 hle
    rw [likelier, if_pos hkeep]
    refine ⟨k, (List.getElem?_append_left hk).trans h.getElem?_eq, fun e he => ?_,
      fun i hi e he => ?_⟩
    · rcases List.mem_append.1 he with he | he
      · exact h.le e he
      · obtain rfl := List.mem_singleton.1 he
        exact hkeep
    · rw [List.getElem?_append_left (Nat.lt_trans hi hk)] at he
      exact h.lt i hi e he
  · have hlt (e : Outcome R) (he : e ∈ es) : value e.probability < value next.probability :=
      ((hord.le_iff (hes e he) hbest).1 (h.le e he)).trans_lt (not_le.1 hle)
    rw [likelier, if_neg (mt (hord.le_iff hnext hbest).1 hle)]
    refine ⟨es.length, List.getElem?_concat_length, fun e he => ?_, fun i hi e he => ?_⟩
    · rcases List.mem_append.1 he with he | he
      · exact (hord.le_iff (hes e he) hnext).2 (hlt e he).le
      · obtain rfl := List.mem_singleton.1 he
        exact (hord.le_iff hnext hnext).2 le_rfl
    · rw [List.getElem?_append_left hi] at he
      have hmem := List.mem_of_getElem? he
      exact (hord.lt_iff (hes e hmem) hnext).2 (hlt e hmem)

/-- What is kept at the end leads the outcomes seen before and those that were still to come. -/
theorem Leads.append (hall : ∀ e ∈ es ++ rest, P e.probability) (h : Leads es k best) :
    ∃ l, Leads (es ++ rest) l (rest.foldl likelier best) := by
  -- each step moves one outcome over to those that were seen
  induction rest generalizing es k best with
  | nil => exact ⟨k, by rwa [List.append_nil]⟩
  | cons next rest ih =>
    rw [List.append_cons] at hall ⊢
    obtain ⟨hseen, -⟩ := List.forall_mem_append.1 hall
    obtain ⟨hes, hnext⟩ := List.forall_mem_append.1 hseen
    obtain ⟨l, hl⟩ := h.concat hord hes (hnext next List.mem_cons_self)
    exact ih hall hl

variable {d : Distribution R} (hd : ∀ e ∈ d.outcomes, P e.probability)
include hd

theorem exists_leads (hne : d.outcomes ≠ []) :
    ∃ k o, d.mostLikely? = some o ∧ Leads d.outcomes k o := by
  obtain ⟨first, rest, hcons⟩ := List.exists_cons_of_ne_nil hne
  rw [hcons] at hd ⊢
  have hfirst := hd first List.mem_cons_self
  have hstart : Leads [first] 0 first :=
    ⟨rfl, List.forall_mem_singleton.2 ((hord.le_iff hfirst hfirst).2 le_rfl),
      fun i hi => absurd hi (Nat.not_lt_zero i)⟩
  obtain ⟨k, hk⟩ := hstart.append hord hd
  exact ⟨k, _, by rw [mostLikely?, hcons], hk⟩

/-- **The most probable outcome is the first of those that none exceeds.** -/
theorem picksFirst : d.PicksFirst := by
  by_cases hne : d.outcomes = []
  · have hnone : d.mostLikely? = none := by rw [mostLikely?, hne]
    refine ⟨iff_of_true hnone hne, fun o => ?_⟩
    rw [hnone]
    refine iff_of_false (fun h => by cases h) ?_
    rintro ⟨k, hk⟩
    exact absurd hk.mem (hne ▸ List.not_mem_nil)
  · obtain ⟨k, best, hbest, hleads⟩ := exists_leads hord hd hne
    refine ⟨iff_of_false (by rw [hbest]; exact Option.some_ne_none _) hne, fun o => ?_⟩
    rw [hbest, Option.some_inj]
    constructor
    · rintro rfl
      exact ⟨k, hleads⟩
    · rintro ⟨l, hl⟩
      exact hleads.unique hord hd hl

end

end Distribution

end KetSim
