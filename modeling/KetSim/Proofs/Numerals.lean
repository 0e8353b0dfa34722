import KetSim.Json.Token
/-!
# Numbers as they are written

The digits of a number are read as this number (`Decimal.readDigits_digitChars`), and none of them
is a leading zero. A literal in the form that JSON asks for (`Literal.Written`) is read up to its
last character where no further part of it could follow (`Token.scan_literal`); the literals of
integers have this form, and those that fit a word are read back (`Literal.toSignedWord?_ofInt`,
`Literal.toWord?_ofNat`).
-/
namespace KetSim

/-! ## Digits -/

namespace Decimal

theorem readDigits_digitChars (n : Nat) : readDigits (digitChars n) = n := by
  have hfold : ∀ (cs : List Char) (m : Nat),
      cs.foldl (fun n c => n * 10 + digitValue c) m = Nat.ofDigitChars 10 cs m := by
    intro cs
    induction cs with
    | nil => intro m; rfl
    | cons c cs ih => intro m; rw [List.foldl_cons, ih, Nat.mul_comm]; rfl
  rw [readDigits, hfold]
  exact Nat.ofDigitChars_toDigits (by decide) (by decide)

theorem isDigit_of_mem_digitChars {n : Nat} {c : Char} (hc : c ∈ digitChars n) :
    c.isDigit = true :=
  Nat.isDigit_of_mem_toDigits (by decide) (by decide) hc

/-- The first digit of a number that is not zero is not zero. -/
theorem exists_digitChars_cons {n : Nat} (hn : 0 < n) :
    ∃ c rest, digitChars n = c :: rest ∧ c ≠ '0' := by
  induction n using Nat.strongRecOn with
  | ind n ih =>
    by_cases hlt : n < 10
    · refine ⟨n.digitChar, [], Nat.toDigits_of_lt_base hlt, ?_⟩
      have hdigit : ∀ d < 10, 0 < d → d.digitChar ≠ '0' := by decide
      exact hdigit n hlt hn
    · obtain ⟨c, rest, hcs, hc⟩ := ih (n / 10) (by omega) (by omega)
      refine ⟨c, rest ++ [(n % 10).digitChar], ?_, hc⟩
      rw [digitChars] at hcs ⊢
      rw [Nat.toDigits_of_base_le (by decide) (by omega), hcs]
      rfl

/-- No digit stands at the start of the text. -/
def NoDigit (cs : List Char) : Prop := ∀ c ∈ cs.head?, c.isDigit = false

theorem spanDigits_append {ds rest : List Char} (hds : ∀ c ∈ ds, c.isDigit = true)
    (hrest : NoDigit rest) : spanDigits (ds ++ rest) = (ds, rest) := by
  have hstop : rest.takeWhile Char.isDigit = [] ∧ rest.dropWhile Char.isDigit = rest := by
    cases rest with
    | nil => exact ⟨rfl, rfl⟩
    | cons c rest => simp [hrest c rfl]
  rw [spanDigits, List.takeWhile_append_of_pos hds, List.dropWhile_append_of_pos hds,
    hstop.1, hstop.2, List.append_nil]

end Decimal

namespace Json

/-! ## Literals -/

namespace Literal

/-- The literal has the form that JSON asks for: a zero, or digits that do not start with one, and
digits after the point. -/
structure Written (l : Literal) : Prop where
  whole : l.whole = ['0'] ∨
    (∃ c rest, l.whole = c :: rest ∧ c ≠ '0') ∧ ∀ c ∈ l.whole, c.isDigit = true
  fraction : ∀ c ∈ l.fraction, c.isDigit = true

theorem written_digitChars (negative : Bool) (n : Nat) (exponent : Option Int) :
    Written ⟨negative, Decimal.digitChars n, [], exponent⟩ := by
  refine ⟨?_, fun c hc => nomatch hc⟩
  rcases Nat.eq_zero_or_pos n with rfl | hn
  · exact .inl rfl
  · exact .inr ⟨Decimal.exists_digitChars_cons hn, fun c hc => Decimal.isDigit_of_mem_digitChars hc⟩

theorem written_ofNat (n : Nat) : (ofNat n).Written := written_digitChars false n none

theorem written_ofInt (z : Int) : (ofInt z).Written := by
  cases z with
  | ofNat n => exact written_ofNat n
  | negSucc n => exact written_digitChars true (n + 1) none

theorem toInt?_ofInt (z : Int) : (ofInt z).toInt? = some z := by
  cases z with
  | ofNat n => simp [ofInt, ofNat, toInt?, Decimal.readDigits_digitChars]
  | negSucc n => simp [ofInt, toInt?, Decimal.readDigits_digitChars, Int.negSucc_eq]

/-- An integer that fits a signed word is read back. -/
theorem toSignedWord?_ofInt {z : Int} (hlow : -0x8000000000000000 ≤ z)
    (hhigh : z ≤ 0x7FFFFFFFFFFFFFFF) : (ofInt z).toSignedWord? = some z := by
  simp [toSignedWord?, toInt?_ofInt, hlow, hhigh]

/-- A natural number that fits a word is read back. -/
theorem toWord?_ofNat {n : Nat} (hn : n < 1 <<< 64) : (ofNat n).toWord? = some n := by
  have hint : (ofNat n).toInt? = some (Int.ofNat n) := toInt?_ofInt (.ofNat n)
  rw [toWord?, hint]
  exact if_pos hn

end Literal

/-! ## Reading literals -/

namespace Token

/-- Nothing at the start of the text could be a further part of a number. -/
def EndsNumber (cs : List Char) : Prop :=
  ∀ c ∈ cs.head?, c.isDigit = false ∧ c ≠ '.' ∧ c ≠ 'e' ∧ c ≠ 'E'

variable {rest : List Char}

theorem scanWhole_append {l : Literal} (hl : l.Written) (hrest : Decimal.NoDigit rest) :
    scanWhole (l.whole ++ rest) = some (l.whole, rest) := by
  rcases hl.whole with hzero | ⟨⟨c, ds, hcons, hc⟩, hdigits⟩
  · rw [hzero]
    rfl
  · have hspan := Decimal.spanDigits_append hdigits hrest
    rw [hcons] at hspan ⊢
    rw [scanWhole, hspan]
    intro after e
    exact hc (List.cons.inj e).1

theorem scanFraction_append {ds : List Char} (hds : ∀ c ∈ ds, c.isDigit = true)
    (hrest : Decimal.NoDigit rest) (hpoint : '.' ∉ rest.head?) :
    scanFraction (Literal.fractionChars ds ++ rest) = some (ds, rest) := by
  cases ds with
  | nil =>
    rw [Literal.fractionChars, List.nil_append, scanFraction]
    rintro after rfl
    exact hpoint rfl
  | cons d ds =>
    have hspan := Decimal.spanDigits_append hds hrest
    simp only [Literal.fractionChars, List.cons_append] at hspan ⊢
    rw [scanFraction, hspan]

/-- The digits of a number, where digits are asked for. -/
theorem spanDigits_digitChars (n : Nat) (hrest : Decimal.NoDigit rest) :
    ∃ d ds, Decimal.spanDigits (Decimal.digitChars n ++ rest) = (d :: ds, rest) ∧
      Decimal.readDigits (d :: ds) = n := by
  obtain ⟨d, ds, hcons⟩ := List.exists_cons_of_ne_nil (Nat.toDigits_ne_nil (b := 10) (n := n))
  have hspan := Decimal.spanDigits_append
    (fun c hc => Decimal.isDigit_of_mem_digitChars (n := n) hc) hrest
  have hread := Decimal.readDigits_digitChars n
  rw [Decimal.digitChars, hcons] at hspan hread
  exact ⟨d, ds, by rw [Decimal.digitChars, hcons, hspan], hread⟩

theorem scanExponent_append (e : Option Int) (hrest : EndsNumber rest) :
    scanExponent (Literal.exponentChars e ++ rest) = some (e, rest) := by
  have hnodigit : Decimal.NoDigit rest := fun c hc => (hrest c hc).1
  match e with
  | none =>
    rw [Literal.exponentChars, List.nil_append]
    cases rest with
    | nil => rfl
    | cons c rest =>
      obtain ⟨-, -, hlower, hupper⟩ := hrest c rfl
      simp [scanExponent, hlower, hupper]
  | some (.ofNat n) =>
    obtain ⟨d, ds, hspan, hread⟩ := spanDigits_digitChars n hnodigit
    simp [Literal.exponentChars, scanExponent, scanExponentSign, hspan, hread]
  | some (.negSucc n) =>
    obtain ⟨d, ds, hspan, hread⟩ := spanDigits_digitChars (n + 1) hnodigit
    simp [Literal.exponentChars, scanExponent, scanExponentSign, hspan, hread, Int.negSucc_eq]

theorem endsNumber_cons {c : Char} (hc : c.isDigit = false ∧ c ≠ '.' ∧ c ≠ 'e' ∧ c ≠ 'E') :
    EndsNumber (c :: rest) := fun d hd => by
  obtain rfl := Option.some.inj hd
  exact hc

/-- What stands behind the digits before the point is no digit. -/
theorem noDigit_fractionChars_append {ds : List Char} (hrest : Decimal.NoDigit rest) :
    Decimal.NoDigit (Literal.fractionChars ds ++ rest) := by
  cases ds with
  | nil => exact hrest
  | cons d ds =>
    intro c hc
    obtain rfl := Option.some.inj hc
    rfl

/-- What stands behind all digits is neither a digit nor a point. -/
theorem head_exponentChars_append (e : Option Int) (hrest : EndsNumber rest) :
    ∀ c ∈ (Literal.exponentChars e ++ rest).head?, c.isDigit = false ∧ c ≠ '.' := by
  intro c hc
  match e with
  | none => exact ⟨(hrest c hc).1, (hrest c hc).2.1⟩
  | some (.ofNat n) =>
    obtain rfl := Option.some.inj hc
    decide
  | some (.negSucc n) =>
    obtain rfl := Option.some.inj hc
    decide

theorem scanUnsigned_append {l : Literal} (hl : l.Written) (hrest : EndsNumber rest) :
    scanUnsigned l.negative (l.whole ++ (Literal.fractionChars l.fraction ++
      (Literal.exponentChars l.exponent ++ rest))) = some (l, rest) := by
  have hhead := head_exponentChars_append l.exponent hrest
  have hnodigit : Decimal.NoDigit (Literal.exponentChars l.exponent ++ rest) :=
    fun c hc => (hhead c hc).1
  rw [scanUnsigned, scanWhole_append hl (noDigit_fractionChars_append hnodigit)]
  simp only [Option.bind_eq_bind, Option.bind_some]
  rw [scanFraction_append hl.fraction hnodigit fun hc => (hhead _ hc).2 rfl]
  simp only [Option.bind_some]
  rw [scanExponent_append l.exponent hrest]
  rfl

/-- A token that starts with a digit is a number. -/
theorem scan_of_isDigit {c : Char} (hc : c.isDigit = true) (cs : List Char) :
    scan (c :: cs) = (scanUnsigned false (c :: cs)).map fun (l, after) => (number l, after) := by
  have hne (d : Char) (hd : d.isDigit = false) : c ≠ d := by
    rintro rfl
    rw [hc] at hd
    cases hd
  rw [scan.eq_def]
  split <;> try exact absurd (List.cons.inj ‹_›).1 (hne _ rfl)
  · rename_i d rest hcons
    obtain ⟨rfl, rfl⟩ := List.cons.inj hcons
    rw [if_neg (hne _ rfl), if_neg (hne _ rfl)]
    cases scanUnsigned false (c :: cs) <;> rfl
  · rename_i hnil
    cases hnil

/-- A literal is read up to its last character. -/
theorem scan_literal {l : Literal} (hl : l.Written) (hrest : EndsNumber rest) :
    scan (l.chars ++ rest) = some (number l, rest) := by
  have hscan := scanUnsigned_append hl hrest
  obtain ⟨negative, whole, fraction, exponent⟩ := l
  cases negative with
  | true =>
    simp only [Literal.chars, if_true, List.nil_append, List.cons_append, List.append_assoc]
    rw [scan]
    simp only at hscan
    rw [hscan]
    rfl
  | false =>
    obtain ⟨c, ds, rfl, hc⟩ : ∃ c ds, whole = c :: ds ∧ c.isDigit = true := by
      rcases hl.whole with rfl | ⟨⟨c, ds, rfl, -⟩, hall⟩
      · exact ⟨'0', [], rfl, rfl⟩
      · exact ⟨c, ds, rfl, hall c List.mem_cons_self⟩
    simp only [Literal.chars, Bool.false_eq_true, if_false, List.nil_append, List.cons_append,
      List.append_assoc] at hscan ⊢
    rw [scan_of_isDigit hc, hscan]
    rfl

end Token

end Json

end KetSim
