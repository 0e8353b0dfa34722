import KetSim.Channel
import KetSim.Proofs.Evolution
import KetSim.Scalar.Machine
/-!
# Any circuit is safe to hand to an engine

An engine may be handed any circuit, also one that was read without checks. `Engine.Settles` says
what it makes of it: a circuit that is too wide or does not fit is refused for that reason, every
other one is run from the first operation to the last, and no shift, difference or index leaves its
domain on the way. What carries this is that settings limit the width before anything else is looked
at, that the check lets only circuits through that fit, and that every operation that fits keeps the
length of the vector.
-/
namespace KetSim

namespace StateVector
variable {A : Type} [Coefficient A]

/-- A part of the operations of a valid circuit, from the first one on, can be applied to any vector
of the right length and keeps its length. -/
theorem applyAll_of_isPrefix {c : Circuit} (hc : c.Valid) (hw : c.width < 64)
    {start : StateVector A} (hsw : start.width = c.width)
    (hsize : start.amplitudes.size = 2 ^ c.width) {done : List Operation}
    (hdone : done <+: c.operations) :
    ∃ s, start.applyAll done = .ok s ∧ s.width = c.width ∧ s.amplitudes.size = 2 ^ c.width := by
  have hfits : ∀ op ∈ done, op.Fits start.width := fun op hop =>
    hsw ▸ hc.fits op (hdone.subset hop)
  obtain ⟨s, e, hs, h⟩ := applyAll_holds (holds_coefficient (hsw ▸ hsize)) hfits
    fun op hop => (hfits op hop).inWord (hsw ▸ hw)
  exact ⟨s, e, hs.trans hsw, hsw ▸ h.size_eq⟩

end StateVector

namespace Engine
variable {R : Type} [Scalar R]

/-- What an engine makes of a circuit, whatever the circuit is. -/
structure Settles (e : Engine R) (c : Circuit) : Prop where
  /-- A circuit is refused as too wide if it is wider than the limit, and only then. -/
  tooWide : e.settings.maxQubits < c.width →
    (e.prepare c).result = .error (.registerTooWide c.width e.settings.maxQubits)
  width_of_tooWide : ∀ requested limit,
    (e.prepare c).result = .error (.registerTooWide requested limit) →
      e.settings.maxQubits < c.width
  /-- What does not fit is refused with the very error of the check. -/
  misfit : c.width ≤ e.settings.maxQubits → ∀ problem, c.check = .error problem →
    (e.prepare c).result = .error problem
  /-- Everything else is run to its end and leaves one entry for each basis state, provided that the
  vector can be held. -/
  prepared : c.width ≤ e.settings.maxQubits → c.check (R := R) = .ok () →
    2 ^ c.width ≤ StateVector.maxEntries → ∃ start final : StateVector (Amplitude R),
      StateVector.zeroState c.width = .ok start ∧ start.applyAll c.operations = .ok final ∧
      (e.prepare c).result = .ok final ∧ final.width = c.width ∧
      final.amplitudes.size = 2 ^ c.width
  /-- The operations leave no domain at any point, even on a vector that is longer than can be
  held. -/
  applied : c.width ≤ e.settings.maxQubits → c.check (R := R) = .ok () →
    ∀ start : StateVector (Amplitude R), start.width = c.width →
      start.amplitudes.size = 2 ^ c.width → ∀ done, done <+: c.operations →
        ∃ s, start.applyAll done = .ok s ∧ s.width = c.width ∧ s.amplitudes.size = 2 ^ c.width
  /-- The one fault there is, is that the vector cannot be held. -/
  unaddressable_of_fault : ∀ fault, (e.prepare c).result = .error (.fault fault) →
    fault = .unaddressable ∧ StateVector.maxEntries < 2 ^ c.width

theorem settles_of_le {e : Engine R} (he : e.settings.maxQubits ≤ 63) (c : Circuit) :
    e.Settles c where
  tooWide hw := by rw [prepare_result e he, if_pos hw]
  width_of_tooWide requested limit h := by
    rcases prepare_cases he c with ⟨hw, -⟩ | ⟨problem, hc, e'⟩ | ⟨-, -, e'⟩ | ⟨-, e'⟩
    · exact hw
    · obtain rfl := Except.error.inj (e'.symm.trans h)
      exact (Circuit.isMisfit_of_check hc).elim
    · cases e'.symm.trans h
    · cases e'.symm.trans h
  misfit hw problem hc := by
    rw [prepare_result e he, if_neg (by omega), hc]
    rfl
  prepared hw hc hmem := by
    have hv : c.Valid := Circuit.check_eq_ok_iff.1 hc
    obtain ⟨start, es, ef⟩ := StateVector.applyAll_zeroState (A := Amplitude R) (by omega) hv hmem
    exact ⟨start, c.finalState, es, ef, prepare_valid he hv hw hmem, rfl, c.size_finalState⟩
  applied hw hc start hsw hsize done hdone :=
    StateVector.applyAll_of_isPrefix (Circuit.check_eq_ok_iff.1 hc) (by omega) hsw hsize hdone
  unaddressable_of_fault fault h := by
    rcases prepare_cases he c with ⟨-, e'⟩ | ⟨problem, hc, e'⟩ | ⟨-, hmem, e'⟩ | ⟨-, e'⟩
    · cases e'.symm.trans h
    · obtain rfl := Except.error.inj (e'.symm.trans h)
      exact (Circuit.isMisfit_of_check hc).elim
    · cases e'.symm.trans h
      exact ⟨rfl, hmem⟩
    · cases e'.symm.trans h

/-- An engine that was created has settings that can be honoured. -/
theorem maxQubits_of_create {s : Settings R} {e : Engine R} (h : create s = .ok e) :
    e.settings.maxQubits ≤ 63 := by
  rw [create] at h
  cases hs : s.validate with
  | error problem =>
    rw [hs] at h
    cases h
  | ok u =>
    rw [hs] at h
    obtain rfl := Except.ok.inj h
    exact (Settings.maxQubits_of_validate hs).2

/-- A channel that was bootstrapped shows an engine that was created. -/
theorem exists_create_of_bootstrap {channel channel' : Channel R} {s : Settings R}
    (h : (channel.bootstrap s).value = (channel', .ok ())) :
    ∃ e, create s = .ok e ∧ channel'.status = .ready e.backend := by
  rw [Channel.bootstrap] at h
  cases he : create s with
  | error problem =>
    rw [he] at h
    cases h
  | ok e =>
    rw [he] at h
    obtain ⟨rfl, -⟩ := Prod.mk.inj h
    exact ⟨e, rfl, rfl⟩

/-- **No circuit leads an engine out of its domain**, however the engine was made: created from
settings, with the standard ones, or published by a bootstrap. -/
theorem settles :
    (∀ {R : Type} [Scalar R] {s : Settings R} {e : Engine R}, create s = .ok e →
      ∀ c, e.Settles c) ∧
    (∀ c, standard.Settles c) ∧
    (∀ {R : Type} [Scalar R] {channel channel' : Channel R} {s : Settings R},
      (channel.bootstrap s).value = (channel', .ok ()) →
        ∃ e : Engine R, channel'.status = .ready e.backend ∧ ∀ c, e.Settles c) := by
  refine ⟨fun h => settles_of_le (maxQubits_of_create h), settles_of_le (by decide), fun h => ?_⟩
  obtain ⟨e, he, hready⟩ := exists_create_of_bootstrap h
  exact ⟨e, hready, settles_of_le (maxQubits_of_create he)⟩

/-- A flip that has lost one of its qubits and names one that no register has, and a register as
wide as there are bits in a word. -/
theorem settles_hostile :
    (standard.prepare ⟨2, [⟨.cnot, [⟨0xFFFFFFFFFFFFFFFF⟩]⟩]⟩).result =
      .error (.arity 0 "cx" 2 1) ∧
    (create ⟨63, 0.0, 1e-9⟩ = .ok ⟨⟨63, 0.0, 1e-9⟩⟩ ∧
      ((⟨⟨63, 0.0, 1e-9⟩⟩ : Engine Float).prepare ⟨64, []⟩).result =
        .error (.registerTooWide 64 63)) ∧
    (∃ e : Engine Float, (Channel.fresh.bootstrap Settings.standard).value.1.status =
      .ready e.backend ∧ e.Settles ⟨2, [.cnot ⟨1⟩ ⟨1⟩]⟩) := by
  have hboot : (Channel.fresh.bootstrap Settings.standard).value =
      (⟨.ready standard.backend, .gone⟩, .ok ()) := rfl
  have hwide : create (⟨63, 0.0, 1e-9⟩ : Settings Float) = .ok ⟨⟨63, 0.0, 1e-9⟩⟩ := rfl
  refine ⟨(settles.2.1 _).misfit (by decide) _ rfl,
    ⟨hwide, (settles.1 hwide _).tooWide (by decide)⟩, ?_⟩
  obtain ⟨e, hready, h⟩ := settles.2.2 hboot
  exact ⟨e, hready, h _⟩

end Engine

end KetSim
