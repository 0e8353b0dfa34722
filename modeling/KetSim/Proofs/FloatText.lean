import KetSim.Proofs.Numerals
/-!
# Floats as they are written

A positive float is written by the digits of a decimal that rounds to it, found on ever finer grids
of decimals (`Decimal.shortest`). Zero rounds to no positive number, so these digits are not zero,
and what is written, with a point or with an exponent, has the form that JSON asks for
(`Literal.written_ofFinite`).
-/
namespace KetSim

/-! ## The digits -/

namespace Decimal

theorem low_pos {m : Nat} (hm : 0 < m) (e : Int) : 0 < (neighbourhood m e).low := by
  unfold neighbourhood
  show 0 < 4 * m - _
  split <;> omega

theorem ratio_pos {m : Nat} (hm : 0 < m) (e g : Int) : 0 < (ratio m e g).1 := by
  unfold ratio
  rw [Nat.shiftLeft_eq]
  exact Nat.mul_pos (Nat.mul_pos hm (Nat.two_pow_pos _)) (Nat.pow_pos (by decide))

/-- Zero does not round to a positive number. -/
theorem ne_zero_of_contains {m : Nat} (hm : 0 < m) {e g : Int} {d : Nat}
    (h : (neighbourhood m e).contains e g d = true) : d ≠ 0 := by
  rintro rfl
  have hlow := ratio_pos (low_pos hm e) (e - 2) g
  unfold Neighbourhood.contains at h
  simp only [Nat.zero_mul] at h
  split at h
  · rw [Bool.and_eq_true, decide_eq_true_eq] at h
    omega
  · rw [Bool.and_eq_true, decide_eq_true_eq] at h
    omega

theorem ne_zero_of_onGrid? {m : Nat} (hm : 0 < m) {tie : Tie} {e g : Int} {d : Nat}
    (h : onGrid? tie m e g = some d) : d ≠ 0 := by
  have hbelow : d = (ratio m e g).1 / (ratio m e g).2 →
      (neighbourhood m e).contains e g ((ratio m e g).1 / (ratio m e g).2) = true → d ≠ 0 := by
    intro hd hcontains
    rw [hd]
    exact ne_zero_of_contains hm hcontains
  have habove : d = (ratio m e g).1 / (ratio m e g).2 + 1 → d ≠ 0 := by
    rintro rfl
    exact Nat.succ_ne_zero _
  unfold onGrid? at h
  simp only at h
  split at h
  · rename_i hleft _
    exact hbelow (Option.some.inj h).symm hleft
  · exact habove (Option.some.inj h).symm
  · cases h
  · rename_i hleft _
    split at h
    · exact hbelow (Option.some.inj h).symm hleft
    · exact habove (Option.some.inj h).symm
    · exact habove (Option.some.inj h).symm
    · have hd := (Option.some.inj h).symm
      split at hd
      · exact hbelow hd hleft
      · exact habove hd

theorem strip_ne_zero {d : Decimal} (hd : d.digits ≠ 0) : (strip d).digits ≠ 0 := by
  induction d using strip.induct with
  | case1 d h ih =>
    rw [strip, dif_pos h]
    apply ih
    show d.digits / 10 ≠ 0
    omega
  | case2 d h =>
    rwa [strip, dif_neg h]

/-- The shortest decimal of a positive number is not zero. -/
theorem shortest_ne_zero (tie : Tie) {m : Nat} (hm : 0 < m) (e : Int) :
    (shortest tie m e).digits ≠ 0 := by
  unfold shortest
  apply strip_ne_zero
  cases hfound : (List.range 17).findSome? fun n =>
      (onGrid? tie m e (scale m e - ((n + 1 : Nat) : Int))).map fun d =>
        (⟨d, scale m e - ((n + 1 : Nat) : Int)⟩ : Decimal) with
  | none =>
    simp only [Option.getD_none]
    rw [Nat.shiftLeft_eq]
    exact Nat.ne_of_gt (Nat.mul_pos (Nat.mul_pos hm (Nat.two_pow_pos _))
      (Nat.pow_pos (by decide : 0 < 5)))
  | some found =>
    obtain ⟨n, -, hn⟩ := List.exists_of_findSome?_eq_some hfound
    obtain ⟨d, hd, rfl⟩ := Option.map_eq_some_iff.1 hn
    simp only [Option.getD_some]
    exact ne_zero_of_onGrid? hm hd

end Decimal

/-! ## The literal -/

namespace Json.Literal

theorem isDigit_of_mem_positional {d : Decimal} {c : Char}
    (hc : c ∈ d.positional.1 ∨ c ∈ d.positional.2) : c.isDigit = true := by
  have hzeros (k : Nat) : c ∈ List.replicate k '0' → c.isDigit = true := by
    intro h
    rw [List.eq_of_mem_replicate h]
    rfl
  have hdigits : c ∈ Decimal.digitChars d.digits → c.isDigit = true :=
    Decimal.isDigit_of_mem_digitChars
  unfold Decimal.positional at hc
  simp only at hc
  split at hc
  · rcases hc with hc | hc
    · rw [List.mem_singleton.1 hc]
      rfl
    · rcases List.mem_append.1 hc with hc | hc
      · exact hzeros _ hc
      · exact hdigits hc
  · rcases hc with hc | hc
    · rcases List.mem_append.1 hc with hc | hc
      · exact hdigits (List.mem_of_mem_take hc)
      · exact hzeros _ hc
    · exact hdigits (List.mem_of_mem_drop hc)

/-- In front of the point stands a zero, or a number that does not start with one. -/
theorem positional_whole {d : Decimal} (hd : d.digits ≠ 0) : d.positional.1 = ['0'] ∨
    ∃ c rest, d.positional.1 = c :: rest ∧ c ≠ '0' := by
  unfold Decimal.positional
  simp only
  split
  · exact .inl rfl
  · rename_i hplace
    obtain ⟨c, rest, hcs, hc⟩ := Decimal.exists_digitChars_cons (Nat.pos_of_ne_zero hd)
    obtain ⟨k, hk⟩ : ∃ k, d.pointPlace.toNat = k + 1 := ⟨d.pointPlace.toNat - 1, by omega⟩
    right
    rw [hcs, hk, List.take_succ_cons, List.cons_append]
    exact ⟨c, _, rfl, hc⟩

/-- A float is written in the form that JSON asks for. -/
theorem written_ofFinite (negative : Bool) {m : Nat} (hm : 0 < m) (e : Int) :
    (ofFinite negative m e).Written := by
  have hd := Decimal.shortest_ne_zero .toEven hm e
  unfold ofFinite
  generalize Decimal.shortest .toEven m e = d at hd
  simp only
  have hwhole : d.positional.1 = ['0'] ∨ (∃ c rest, d.positional.1 = c :: rest ∧ c ≠ '0') ∧
      ∀ c ∈ d.positional.1, c.isDigit = true :=
    (positional_whole hd).imp_right fun h =>
      ⟨h, fun c hc => isDigit_of_mem_positional (.inl hc)⟩
  split
  · split
    · rename_i whole heq
      rw [heq] at hwhole
      exact ⟨hwhole, by simp⟩
    · rename_i whole fraction _ heq
      rw [heq] at hwhole
      refine ⟨hwhole, fun c hc => isDigit_of_mem_positional (d := d) (.inr ?_)⟩
      rwa [heq]
  · obtain ⟨c, rest, hcs, hc⟩ := Decimal.exists_digitChars_cons (Nat.pos_of_ne_zero hd)
    have hdigits : ∀ x ∈ Decimal.digitChars d.digits, x.isDigit = true :=
      fun x hx => Decimal.isDigit_of_mem_digitChars hx
    refine ⟨.inr ⟨⟨c, [], by rw [hcs]; rfl, hc⟩, fun x hx => hdigits x (List.mem_of_mem_take hx)⟩,
      fun x hx => hdigits x (List.mem_of_mem_drop hx)⟩

/-- A float has a literal if it is finite. -/
theorem exists_ofFloat?_eq_some {x : Float} (hx : x.isFinite = true) :
    ∃ l, ofFloat? x = some l ∧ l.Written := by
  have hfin : x.toModel.unpack.isFinite = true := hx
  unfold ofFloat?
  generalize x.toModel.unpack = u at hfin ⊢
  cases u with
  | infinity s => cases hfin
  | notANumber => cases hfin
  | zero s => exact ⟨_, rfl, ⟨.inl rfl, by simp⟩⟩
  | finite s m e hm => exact ⟨_, rfl, written_ofFinite _ hm e⟩

end Json.Literal

end KetSim
