import KetSim.Proofs.DoubleTransform
import KetSim.Proofs.FloatText
import KetSim.Proofs.Storing
import KetSim.Stored.Distribution
/-!
# Distributions are handed off

A distribution is written as text for whoever draws it, and is read back from it
(`Stored.roundTrips_distribution`). That a float is read back from its digits is assumed of the floats
in the distribution and of nothing else (`Distribution.ReadBack`), since reading does not give every
float back. That they are finite is no assumption where a distribution is made of amplitudes.
-/
namespace KetSim
open Json Codec

/-! ## Finite floats -/

/-- A finite float can be written down. -/
theorem written_float {x : Float} (hx : x.isFinite = true) : (encode x).Written := by
  obtain ⟨l, hl, hwritten⟩ := Literal.exists_ofFloat?_eq_some hx
  show (Value.optional Value.number (Literal.ofFloat? x)).Written
  rw [hl]
  exact .number hwritten

/-- Nothing is lost between the text and the number that is written in it. -/
theorem ofText?_toText_float {x : Float} (hx : x.isFinite = true) :
    ofText? Float (toText x) = decode (encode x) := by
  rw [ofText?, toText, parse_render (written_float hx)]
  rfl

/-- A finite float is kept if it is read back from the text that is written for it alone. -/
theorem kept_float {x : Float} (hx : x.isFinite = true) (hback : ofText? Float (toText x) = some x) :
    Kept x :=
  ⟨written_float hx, (ofText?_toText_float hx).symm.trans hback⟩

/-! ## Parts of a distribution -/

theorem Amplitude.kept {a : Amplitude Float} (hre : Kept a.re) (him : Kept a.im) : Kept a := by
  refine ⟨.array ?_, ?_⟩
  · intro v hv
    rcases List.mem_cons.1 hv with rfl | hv
    · exact hre.written
    · rw [List.mem_singleton.1 hv]
      exact him.written
  · show ((decode (encode a.re)).bind fun re => (decode (encode a.im)).bind fun im =>
      some (⟨re, im⟩ : Amplitude Float)) = some a
    rw [hre.decode_encode, him.decode_encode]
    rfl

theorem Outcome.kept {o : Outcome Float} (hindex : Kept o.index) (hamplitude : Kept o.amplitude)
    (hprobability : Kept o.probability) : Kept o := by
  have hlabel := kept_string o.label
  refine ⟨written_record (by simp [hindex.written, hlabel.written, hamplitude.written,
    hprobability.written]), ?_⟩
  have hfields : fields? ["index", "label", "amplitude", "probability"] (encode o) =
      some [some (encode o.index), some (encode o.label), some (encode o.amplitude),
        some (encode o.probability)] :=
    fields?_record _ rfl (by decide)
  show (fields? ["index", "label", "amplitude", "probability"] (encode o)).bind _ = some o
  simp [hfields, hindex.decode_encode, hlabel.decode_encode, hamplitude.decode_encode,
    hprobability.decode_encode]

namespace Distribution

/-- All numbers of a distribution but its indices. -/
def numbers {R : Type} (d : Distribution R) : List R :=
  d.outcomes.flatMap fun o => [o.amplitude.re, o.amplitude.im, o.probability]

/-- The counts and indices fit words, and the other numbers are finite. Nothing is asked of the
labels, nor that the indices are in order. -/
structure Storable (d : Distribution Float) : Prop where
  numQubits : Word d.numQubits
  index : ∀ o ∈ d.outcomes, Word o.index
  isFinite : ∀ x ∈ d.numbers, x.isFinite = true

/-- Each number in the distribution is read back from the text that is written for it alone. -/
def ReadBack (d : Distribution Float) : Prop :=
  ∀ x ∈ d.numbers, x.isFinite = true → ofText? Float (toText x) = some x

theorem Storable.kept {d : Distribution Float} (hd : d.Storable) (hback : d.ReadBack) : Kept d := by
  have hnumber : ∀ o ∈ d.outcomes, ∀ x ∈ [o.amplitude.re, o.amplitude.im, o.probability],
      Kept x := by
    intro o ho x hx
    have hmem : x ∈ d.numbers := List.mem_flatMap.2 ⟨o, ho, hx⟩
    exact kept_float (hd.isFinite x hmem) (hback x hmem (hd.isFinite x hmem))
  have hnumQubits := kept_nat hd.numQubits
  have houtcomes : Kept d.outcomes := kept_list fun o ho =>
    Outcome.kept (kept_nat (hd.index o ho))
      (Amplitude.kept (hnumber o ho _ (by simp)) (hnumber o ho _ (by simp)))
      (hnumber o ho _ (by simp))
  refine ⟨written_record (by simp [hnumQubits.written, houtcomes.written]), ?_⟩
  have hfields : fields? ["num_qubits", "entries"] (encode d) =
      some [some (encode d.numQubits), some (encode d.outcomes)] :=
    fields?_record _ rfl (by decide)
  show (fields? ["num_qubits", "entries"] (encode d)).bind _ = some d
  simp [hfields, hnumQubits.decode_encode, houtcomes.decode_encode]

/-- What is made of amplitudes can be stored, since they are in the memory of a machine. -/
theorem storable_of_ofAmplitudes {amps : List (Amplitude Float)} {tolerance : Float}
    {d : Distribution Float} (hlength : Word amps.length)
    (hd : (ofAmplitudes amps tolerance).result = .ok d) :
    d.Storable ∧ d.Lists d.numQubits := by
  obtain ⟨hlen, -, heq⟩ := of_result_ofAmplitudes hd
  have hlists : d.Lists d.numQubits := by
    rw [heq]
    exact lists_normalized hlen
  refine ⟨⟨?_, ?_, ?_⟩, hlists⟩
  · have hlt : d.numQubits < amps.length := hlen ▸ Nat.lt_two_pow_self
    exact hlt.trans hlength
  · intro o ho
    obtain ⟨i, hi⟩ := List.mem_iff_getElem?.1 ho
    have hlt : i < amps.length := by
      rw [hlen, ← hlists.length_eq]
      exact (List.getElem?_eq_some_iff.1 hi).1
    rw [(hlists.outcome_eq i o hi).1]
    exact hlt.trans hlength
  · intro x hx
    obtain ⟨o, ho, hxo⟩ := List.mem_flatMap.1 hx
    obtain ⟨hre, him, hprobability⟩ := isFinite_of_ofAmplitudes hd o ho
    simp only [List.mem_cons, List.not_mem_nil, or_false] at hxo
    rcases hxo with rfl | rfl | rfl
    · exact hre
    · exact him
    · exact hprobability

end Distribution

/-! ## Texts -/

namespace Stored

/-- **Distributions are handed off as they are.** If only its numbers are finite and each of them is
read back when it is written alone, a distribution is read back from its text, whatever its indices
and labels and whether or not they belong together; equality of floats tells the zeros apart. What is
made of amplitudes has finite numbers, so nothing is asked of it but that they are read back. -/
theorem roundTrips_distribution :
    RoundTrips (fun d : Distribution Float => d.Storable ∧ d.ReadBack) ∧
      ∀ (amps : List (Amplitude Float)) (tolerance : Float) (d : Distribution Float),
        Word amps.length → (Distribution.ofAmplitudes amps tolerance).result = .ok d → d.ReadBack →
          d.Storable ∧ d.Lists d.numQubits ∧ ofText? (Distribution Float) (toText d) = some d := by
  refine ⟨roundTrips_of_kept fun d hd => hd.1.kept hd.2, ?_⟩
  intro amps tolerance d hlength hd hback
  obtain ⟨hstorable, hlists⟩ := Distribution.storable_of_ofAmplitudes hlength hd
  exact ⟨hstorable, hlists, (hstorable.kept hback).ofText?_toText⟩

/-- A distribution that no amplitudes have, with both zeros and numbers that are written with a point
and with an exponent, and one that is made of amplitudes. -/
theorem roundTrips_distribution_zeros :
    let d : Distribution Float := ⟨3, [⟨7, "|\u27E9\"", ⟨-0.0, 1e-7⟩, 0.1⟩,
      ⟨0xFFFFFFFFFFFFFFFF, "", ⟨0.0, 12345.75⟩, -2.5e300⟩]⟩
    let amps : List (Amplitude Float) := [⟨-0.0, 0.0⟩, ⟨-3.0, 4.0⟩]
    let built := Distribution.normalized 1 amps
    ((d.Storable ∧ d.ReadBack) ∧ ofText? (Distribution Float) (toText d) = some d) ∧
      (Distribution.ofAmplitudes amps 1e-15).result = .ok built ∧ built.ReadBack ∧
        ofText? (Distribution Float) (toText built) = some built := by
  intro d amps built
  have hback {e : Distribution Float}
      (h : ∀ x ∈ e.numbers, (decode (encode x) : Option Float) = some x) : e.ReadBack :=
    fun x hx hfin => (ofText?_toText_float hfin).trans (h x hx)
  have hd : d.Storable := ⟨by decide, by decide, by decide +kernel⟩
  have hdback : d.ReadBack := hback (by decide +kernel)
  have hr : ¬ Distribution.Rejects amps 1e-15 := by decide +kernel
  have hok : (Distribution.ofAmplitudes amps 1e-15).result = .ok built := by
    rw [Distribution.result_ofAmplitudes (n := 1) rfl, if_neg hr]
  have hbuilt : built.ReadBack := hback (by decide +kernel)
  obtain ⟨htrips, hmade⟩ := roundTrips_distribution
  exact ⟨⟨⟨hd, hdback⟩, htrips.ofText?_toText d ⟨hd, hdback⟩⟩, hok, hbuilt,
    (hmade amps 1e-15 built (by decide) hok hbuilt).2.2⟩

end Stored

end KetSim
