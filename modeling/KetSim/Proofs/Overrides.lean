import KetSim.Error.Message
import KetSim.Settings.Environment
/-!
# Settings overridden by the environment

`Settings.Overlay` says how an environment is laid over settings, and how that ends, as four rules:
one for each variable whose text may be no value, in the order in which the variables are looked at,
and one for an environment in which all texts are values. The settings are then checked, and they
stay overridden whatever the check says. Applying an environment follows these rules
(`Settings.apply_eq_iff`). Each rule leads from the settings it leaves to the same settings again
(`Settings.Overlay.again`), so a second application changes nothing.
-/
namespace KetSim

namespace Environment
variable {α : Type} {env : Environment} {name : String} {read : String → Option α}

/-- The variable leaves a setting at a value: at what the setting was, if the variable is unset or
holds no text, and else at what its text reads as. -/
inductive Leaves (env : Environment) (name : String) (read : String → Option α) (old : α) :
    α → Prop where
  | unset (h : env name = none) : Leaves env name read old old
  | noText {bytes : ByteArray} (h : env name = some bytes) (ht : String.fromUTF8? bytes = none) :
      Leaves env name read old old
  | value {bytes : ByteArray} {text : String} {a : α} (h : env name = some bytes)
      (ht : String.fromUTF8? bytes = some text) (ha : read text = some a) :
      Leaves env name read old a

/-- The variable holds a text that is no value. -/
inductive Garbled (env : Environment) (name : String) (read : String → Option α) :
    String → Prop where
  | intro {bytes : ByteArray} {text : String} (h : env name = some bytes)
      (ht : String.fromUTF8? bytes = some text) (ha : read text = none) : Garbled env name read text

theorem Garbled.text?_eq {text : String} (h : env.Garbled name read text) :
    env.text? name = some text := by
  obtain ⟨h, ht, -⟩ := h
  rw [text?, h, Option.bind_some, ht]

theorem Garbled.read_eq {text : String} (h : env.Garbled name read text) : read text = none := by
  obtain ⟨-, -, ha⟩ := h
  exact ha

/-- What a variable leaves, it leaves again. -/
theorem Leaves.again {old a : α} (h : env.Leaves name read old a) : env.Leaves name read a a := by
  cases h with
  | unset h => exact .unset h
  | noText h ht => exact .noText h ht
  | value h ht ha => exact .value h ht ha

theorem leaves_or_garbled (env : Environment) (name : String) (read : String → Option α) (old : α) :
    (∃ a, env.Leaves name read old a) ∨ ∃ text, env.Garbled name read text := by
  cases h : env name with
  | none => exact Or.inl ⟨old, .unset h⟩
  | some bytes =>
    cases ht : String.fromUTF8? bytes with
    | none => exact Or.inl ⟨old, .noText h ht⟩
    | some text =>
      cases ha : read text with
      | some a => exact Or.inl ⟨a, .value h ht ha⟩
      | none => exact Or.inr ⟨text, .intro h ht ha⟩

end Environment

namespace Settings
open Environment
variable {env : Environment} {s t : Settings Float}

/-! ## One variable -/

theorem run_bind_of_ok {α β : Type} {x : Change α} {f : α → Change β} {a : α}
    (h : x.run s = (.ok a, t)) : (x >>= f).run s = (f a).run t := by
  show (StateT.bind x (ExceptT.bindCont f)) s = _
  rw [StateT.bind, show x s = (.ok a, t) from h]
  rfl

theorem run_bind_of_error {α β : Type} {x : Change α} {f : α → Change β}
    {problem : SettingsProblem Float} (h : x.run s = (.error problem, t)) :
    (x >>= f).run s = (.error problem, t) := by
  show (StateT.bind x (ExceptT.bindCont f)) s = _
  rw [StateT.bind, show x s = (.error problem, t) from h]
  rfl

variable {α : Type} {name : String} {read : String → Option α}
  {put : α → Settings Float → Settings Float}

/-- A variable that leaves the setting `old` at `a` has the setting put to `a`. -/
theorem run_override_of_leaves {old a : α} (hold : put old s = s)
    (h : env.Leaves name read old a) : (override env name read put).run s = (.ok (), put a s) := by
  cases h with
  | unset h => rw [override, text?, h, hold]; rfl
  | noText h ht => rw [override, text?, h, Option.bind_some, ht, hold]; rfl
  | value h ht ha =>
    rw [override, text?, h, Option.bind_some, ht]
    simp only [ha]
    rfl

theorem run_override_of_garbled {text : String} (h : env.Garbled name read text) :
    (override env name read put).run s = (.error (.environment name text), s) := by
  rw [override, h.text?_eq]
  simp only [h.read_eq]
  rfl

/-! ## All variables -/

/-- Every setting is what its variable leaves of the one before. -/
structure Overlaid (env : Environment) (s t : Settings Float) : Prop where
  maxQubits : env.Leaves "QDIST_MAX_QUBITS" Numeral.word? s.maxQubits t.maxQubits
  zeroNormTolerance : env.Leaves "QDIST_ZERO_NORM_TOLERANCE" Numeral.float? s.zeroNormTolerance
    t.zeroNormTolerance
  normalizationTolerance : env.Leaves "QDIST_NORMALIZATION_TOLERANCE" Numeral.float?
    s.normalizationTolerance t.normalizationTolerance

/-- How laying the environment over settings ends, and the settings that it leaves. The first text
that is no value ends it, with what the variables before it left; where all texts are values, the
settings that result are checked and stay. -/
inductive Overlay (env : Environment) (s : Settings Float) :
    Except (SettingsProblem Float) Unit → Settings Float → Prop where
  | maxQubits {text : String} (h : env.Garbled "QDIST_MAX_QUBITS" Numeral.word? text) :
      Overlay env s (.error (.environment "QDIST_MAX_QUBITS" text)) s
  | zeroNormTolerance {n : Nat} {text : String}
      (hn : env.Leaves "QDIST_MAX_QUBITS" Numeral.word? s.maxQubits n)
      (h : env.Garbled "QDIST_ZERO_NORM_TOLERANCE" Numeral.float? text) :
      Overlay env s (.error (.environment "QDIST_ZERO_NORM_TOLERANCE" text))
        { s with maxQubits := n }
  | normalizationTolerance {n : Nat} {z : Float} {text : String}
      (hn : env.Leaves "QDIST_MAX_QUBITS" Numeral.word? s.maxQubits n)
      (hz : env.Leaves "QDIST_ZERO_NORM_TOLERANCE" Numeral.float? s.zeroNormTolerance z)
      (h : env.Garbled "QDIST_NORMALIZATION_TOLERANCE" Numeral.float? text) :
      Overlay env s (.error (.environment "QDIST_NORMALIZATION_TOLERANCE" text))
        { s with maxQubits := n, zeroNormTolerance := z }
  | checked {t : Settings Float} (h : Overlaid env s t) : Overlay env s t.validate t

theorem Overlaid.again (h : Overlaid env s t) : Overlaid env t t :=
  ⟨h.maxQubits.again, h.zeroNormTolerance.again, h.normalizationTolerance.again⟩

/-- What an environment leaves, it leaves again, and in the same way. -/
theorem Overlay.again {result : Except (SettingsProblem Float) Unit}
    (h : Overlay env s result t) : Overlay env t result t := by
  cases h with
  | maxQubits h => exact .maxQubits h
  | zeroNormTolerance hn h => exact .zeroNormTolerance hn.again h
  | normalizationTolerance hn hz h => exact .normalizationTolerance hn.again hz.again h
  | checked h => exact .checked h.again

theorem exists_overlay (env : Environment) (s : Settings Float) :
    ∃ result t, Overlay env s result t := by
  rcases leaves_or_garbled env "QDIST_MAX_QUBITS" Numeral.word? s.maxQubits with
    ⟨n, hn⟩ | ⟨text, h⟩
  · rcases leaves_or_garbled env "QDIST_ZERO_NORM_TOLERANCE" Numeral.float? s.zeroNormTolerance with
      ⟨z, hz⟩ | ⟨text, h⟩
    · rcases leaves_or_garbled env "QDIST_NORMALIZATION_TOLERANCE" Numeral.float?
        s.normalizationTolerance with ⟨d, hd⟩ | ⟨text, h⟩
      · exact ⟨_, ⟨n, z, d⟩, .checked ⟨hn, hz, hd⟩⟩
      · exact ⟨_, _, .normalizationTolerance hn hz h⟩
    · exact ⟨_, _, .zeroNormTolerance hn h⟩
  · exact ⟨_, _, .maxQubits h⟩

theorem run_check : (do MonadExcept.ofExcept (← get).validate : Change Unit).run s =
    (s.validate, s) := by
  show (MonadExcept.ofExcept s.validate : Change Unit).run s = _
  cases s.validate <;> rfl

theorem apply_of_overlay {result : Except (SettingsProblem Float) Unit}
    (h : Overlay env s result t) : s.apply env = (result, t) := by
  rw [apply, overrideAll]
  cases h with
  | maxQubits h => exact run_bind_of_error (run_override_of_garbled h)
  | zeroNormTolerance hn h =>
    rw [run_bind_of_ok (run_override_of_leaves rfl hn)]
    exact run_bind_of_error (run_override_of_garbled h)
  | normalizationTolerance hn hz h =>
    rw [run_bind_of_ok (run_override_of_leaves rfl hn),
      run_bind_of_ok (run_override_of_leaves rfl hz)]
    exact run_bind_of_error (run_override_of_garbled h)
  | checked h =>
    rw [run_bind_of_ok (run_override_of_leaves rfl h.maxQubits),
      run_bind_of_ok (run_override_of_leaves rfl h.zeroNormTolerance),
      run_bind_of_ok (run_override_of_leaves rfl h.normalizationTolerance)]
    exact run_check

/-- Applying an environment is laying it over the settings. -/
theorem apply_eq_iff {result : Except (SettingsProblem Float) Unit} :
    s.apply env = (result, t) ↔ Overlay env s result t := by
  refine ⟨fun h => ?_, apply_of_overlay⟩
  obtain ⟨result', t', ho⟩ := exists_overlay env s
  obtain ⟨rfl, rfl⟩ := Prod.mk.inj ((apply_of_overlay ho).symm.trans h)
  exact ho

theorem apply_apply (env : Environment) (s : Settings Float) :
    (s.apply env).2.apply env = s.apply env := by
  have h : Overlay env s (s.apply env).1 (s.apply env).2 := apply_eq_iff.1 rfl
  exact apply_of_overlay h.again

/-- Either some text is no value, or all settings are overlaid and the check decides. -/
theorem Overlay.garbled_or_checked {result : Except (SettingsProblem Float) Unit}
    (h : Overlay env s result t) :
    (∃ name text, env.text? name = some text ∧ result = .error (.environment name text)) ∨
      (result = t.validate ∧ Overlaid env s t) := by
  cases h with
  | checked h => exact Or.inr ⟨rfl, h⟩
  | maxQubits h | zeroNormTolerance _ h | normalizationTolerance _ _ h =>
    exact Or.inl ⟨_, _, h.text?_eq, rfl⟩

/-- It goes well exactly with settings that are overlaid and pass the check. -/
theorem apply_eq_ok_iff :
    s.apply env = (.ok (), t) ↔ t.validate = .ok () ∧ Overlaid env s t := by
  constructor
  · intro h
    rcases (apply_eq_iff.1 h).garbled_or_checked with ⟨name, text, -, hr⟩ | ⟨hr, ho⟩
    · cases hr
    · exact ⟨hr.symm, ho⟩
  · rintro ⟨hv, ho⟩
    rw [← hv]
    exact apply_of_overlay (.checked ho)

/-- A problem is worded with a variable and the text in it, or it is what the check finds. -/
theorem of_apply_eq_error {problem : SettingsProblem Float}
    (h : s.apply env = (.error problem, t)) :
    (∃ name text, env.text? name = some text ∧
      problem.message = "invalid configuration: " ++ (name ++ ": invalid value '" ++ text ++ "'")) ∨
    (t.validate = .error problem ∧ Overlaid env s t) := by
  rcases (apply_eq_iff.1 h).garbled_or_checked with ⟨name, text, htext, hr⟩ | ⟨hr, ho⟩
  · obtain rfl := Except.error.inj hr
    exact Or.inl ⟨name, text, htext, rfl⟩
  · exact Or.inr ⟨hr.symm, ho⟩

/-- The settings an environment gives by itself are those it leaves of the standard ones. -/
theorem ofEnvironment_eq_ok_iff :
    ofEnvironment env = .ok t ↔ standard.apply env = (.ok (), t) := by
  rw [ofEnvironment]
  obtain ⟨result, t'⟩ := standard.apply env
  cases result <;> simp

theorem ofEnvironment_eq_error_iff {problem : SettingsProblem Float} :
    ofEnvironment env = .error problem ↔ (standard.apply env).1 = .error problem := by
  rw [ofEnvironment]
  obtain ⟨result, t'⟩ := standard.apply env
  cases result <;> simp

/-- What it means to apply an environment to settings. -/
structure LaidOver (env : Environment) : Prop where
  /-- How it ends, and what it leaves in every case, is what the rules say. -/
  rules : ∀ (s t : Settings Float) (result : Except (SettingsProblem Float) Unit),
    s.apply env = (result, t) ↔ Overlay env s result t
  /-- A second time it ends in the same way and changes nothing. -/
  again : ∀ s : Settings Float, (s.apply env).2.apply env = s.apply env
  ends_well : ∀ s t : Settings Float,
    s.apply env = (.ok (), t) ↔ t.validate = .ok () ∧ Overlaid env s t
  /-- A problem is worded with a variable and the text in it, or it is what the check finds. -/
  ends_badly : ∀ (s t : Settings Float) (problem : SettingsProblem Float),
    s.apply env = (.error problem, t) →
    (∃ name text, env.text? name = some text ∧
      problem.message = "invalid configuration: " ++ (name ++ ": invalid value '" ++ text ++ "'")) ∨
    (t.validate = .error problem ∧ Overlaid env s t)
  by_itself : ∀ t : Settings Float,
    ofEnvironment env = .ok t ↔ t.validate = .ok () ∧ Overlaid env standard t
  by_itself_badly : ∀ problem : SettingsProblem Float,
    ofEnvironment env = .error problem ↔ (standard.apply env).1 = .error problem

/-- **An environment is laid over settings variable by variable**, and the result is checked. The
first text that is no value ends it: what was overridden before stays so, and what would come later
is untouched. In no case does applying the environment again change anything. Settings that come out
well pass the check, and each is what its variable leaves of the one before, or of the standard one
where the environment is applied by itself. -/
theorem apply_overlays (env : Environment) : LaidOver env where
  rules _ _ _ := apply_eq_iff
  again := apply_apply env
  ends_well _ _ := apply_eq_ok_iff
  ends_badly _ _ _ := of_apply_eq_error
  by_itself _ := ofEnvironment_eq_ok_iff.trans apply_eq_ok_iff
  by_itself_badly _ := ofEnvironment_eq_error_iff

/-- The first variable holds no text, the second a number and the third none, over settings that no
engine takes: they keep their width and are not checked. -/
theorem apply_overlays_garbled :
    let env : Environment := fun name =>
      if name = "QDIST_MAX_QUBITS" then some ⟨#[0x37, 0xff]⟩
      else if name = "QDIST_ZERO_NORM_TOLERANCE" then some "+.5".toUTF8
      else if name = "QDIST_NORMALIZATION_TOLERANCE" then some "1e-9 ".toUTF8
      else none
    let s : Settings Float := ⟨0, 0.25, 1.0⟩
    s.apply env =
      (.error (.environment "QDIST_NORMALIZATION_TOLERANCE" "1e-9 "), ⟨0, 0.5, 1.0⟩) ∧
    (⟨0, 0.5, 1.0⟩ : Settings Float).apply env = s.apply env := by
  intro env s
  have hn : env.Leaves "QDIST_MAX_QUBITS" Numeral.word? 0 0 := .noText rfl (by decide +kernel)
  have hz : env.Leaves "QDIST_ZERO_NORM_TOLERANCE" Numeral.float? 0.25 0.5 :=
    have hread : Numeral.float? "+.5" = some 0.5 := by decide +kernel
    .value rfl (by decide +kernel) hread
  have h : env.Garbled "QDIST_NORMALIZATION_TOLERANCE" Numeral.float? "1e-9 " :=
    .intro rfl (by decide +kernel) (by decide +kernel)
  have hs : s.apply env =
      (.error (.environment "QDIST_NORMALIZATION_TOLERANCE" "1e-9 "), ⟨0, 0.5, 1.0⟩) :=
    ((apply_overlays env).rules s _ _).2 (.normalizationTolerance hn hz h)
  exact ⟨hs, by rw [← (apply_overlays env).again s, hs]⟩

end Settings

end KetSim
