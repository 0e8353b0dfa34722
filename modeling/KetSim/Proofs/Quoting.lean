import KetSim.Json.Text
/-!
# Quoted texts

A text is written between quotes with escapes for what may not stand there, and read back as it was
(`Json.Text.scan_encode_append`), whatever its characters are.
-/
namespace KetSim.Json.Text

def prepend (p : Piece) (scanned : List Piece × List Char) : List Piece × List Char :=
  (p :: scanned.1, scanned.2)

theorem scan_letter {l c : Char} (hl : letter? l = some c) (cs : List Char) :
    scan ('\\' :: l :: cs) = (scan cs).map (prepend (.char c)) := by
  have hu : l ≠ 'u' := by
    rintro rfl
    cases hl
  rw [scan]
  · rw [hl]
    cases scan cs <;> rfl
  · rintro a b c d rest h
    exact absurd h hu

theorem scan_unit {a b c d : Char} {n : Nat} (hn : unit? a b c d = some n) (cs : List Char) :
    scan ('\\' :: 'u' :: a :: b :: c :: d :: cs) = (scan cs).map (prepend (pieceOfUnit n)) := by
  rw [scan, hn]
  cases scan cs <;> rfl

theorem scan_plain {c : Char} (hc : 32 ≤ c.toNat) (hquote : c ≠ '"') (hslash : c ≠ '\\')
    (cs : List Char) : scan (c :: cs) = (scan cs).map (prepend (.char c)) := by
  rw [scan, if_pos ⟨hc, hslash⟩]
  · cases scan cs <;> rfl
  · exact hquote
  · rintro _ _ _ _ _ rfl
    exact absurd rfl hslash
  · rintro _ _ rfl
    exact absurd rfl hslash

/-- Four hexadecimal digits write a control character's number. -/
theorem unit?_control : ∀ n < 32, unit? '0' '0' (hexChar (n / 16)) (hexChar (n % 16)) = some n := by
  decide

/-- One character is read back from its written form. -/
theorem scan_encodeChar_append (c : Char) (cs : List Char) :
    scan (encodeChar c ++ cs) = (scan cs).map (prepend (.char c)) := by
  unfold encodeChar
  split
  · exact scan_letter rfl cs
  · exact scan_letter rfl cs
  · exact scan_letter rfl cs
  · exact scan_letter rfl cs
  · exact scan_letter rfl cs
  · rename_i hquote hslash _ _ _
    split
    · rename_i h8
      have hc : c = Char.ofNat 8 := by rw [← h8, Char.ofNat_toNat]
      rw [hc]
      exact scan_letter rfl cs
    · split
      · rename_i h12
        have hc : c = Char.ofNat 12 := by rw [← h12, Char.ofNat_toNat]
        rw [hc]
        exact scan_letter rfl cs
      · split
        · rename_i hcontrol
          have hpiece : pieceOfUnit c.toNat = .char c := by
            rw [pieceOfUnit, if_neg (by omega), Char.ofNat_toNat]
          rw [← hpiece]
          exact scan_unit (unit?_control c.toNat hcontrol) cs
        · rename_i hplain
          exact scan_plain (Nat.le_of_not_lt hplain) hquote hslash cs

/-- A text is read back from its written form, up to the closing quote. -/
theorem scan_encode_append (cs rest : List Char) :
    scan (encode cs ++ '"' :: rest) = some (cs.map .char, rest) := by
  induction cs with
  | nil => rfl
  | cons c cs ih =>
    rw [encode, List.flatMap_cons, List.append_assoc, scan_encodeChar_append, ← encode, ih]
    rfl

theorem assemble_map_char (cs : List Char) : assemble (cs.map .char) = some cs := by
  induction cs with
  | nil => rfl
  | cons c cs ih =>
    rw [List.map_cons, assemble, ih]
    rfl

end KetSim.Json.Text
