import KetSim.Json.Reading
import KetSim.Proofs.Numerals
import KetSim.Proofs.Quoting
/-!
# Values as they are written

What is written for a value is read back as this value (`Json.parse_render`), if its numbers have
the form of JSON numbers and its strings are texts (`Value.Written`). A reader in the middle of a
text takes in a whole value and goes on behind it (`Value.Reads`); that is shown of each kind of
value from its parts.
-/
namespace KetSim.Json

/-- The value has a written form of its own. -/
inductive Value.Written : Value → Prop where
  | null : Written null
  | bool (b : Bool) : Written (bool b)
  | number {l : Literal} : l.Written → Written (number l)
  | text (s : String) : Written (text (some s))
  | array {items : List Value} : (∀ v ∈ items, Written v) → Written (array items)
  | object {members : List (Content × Value)} :
      (∀ m ∈ members, ∃ s, m.1 = some s) → (∀ m ∈ members, Written m.2) → Written (object members)

/-! ## One token -/

namespace Token

/-- No token starts with a blank. -/
theorem isBlank_of_scan {c : Char} {cs after : List Char} {t : Token}
    (h : scan (c :: cs) = some (t, after)) : isBlank c = false := by
  rw [Bool.eq_false_iff]
  intro hc
  have hcases : ((c = ' ' ∨ c = '\t') ∨ c = '\n') ∨ c = '\r' := by
    simpa only [isBlank, Bool.or_eq_true, beq_iff_eq] using hc
  rcases hcases with ((rfl | rfl) | rfl) | rfl <;> cases h

/-- A text in quotes is one token. -/
theorem scan_quote (s : String) (rest : List Char) :
    scan (Text.quote s ++ rest) = some (text (some s), rest) := by
  rw [Text.quote, List.cons_append, List.cons_append, List.append_assoc, List.singleton_append,
    scan, Text.scan_encode_append]
  simp [Text.assemble_map_char]

end Token

namespace Progress

def run (p : Progress) (cs : List Char) : Option Progress := do
  (← Token.scanAll cs).foldlM step p

theorem run_of_scan {cs after : List Char} {t : Token} (ht : Token.scan cs = some (t, after))
    (p : Progress) : p.run cs = (p.step t).bind (run · after) := by
  cases cs with
  | nil => cases ht
  | cons c cs =>
    have hall : Token.scanAll (c :: cs) = (Token.scanAll after).map (t :: ·) := by
      rw [Token.scanAll, if_neg (by simp [Token.isBlank_of_scan ht])]
      split
      · rename_i hnone
        cases ht.symm.trans hnone
      · rename_i hsome
        cases ht.symm.trans hsome
        rfl
    rw [run, hall]
    cases hafter : Token.scanAll after with
    | none => cases p.step t <;> simp [run, hafter]
    | some ts => cases hp : p.step t <;> simp [run, hafter, hp, List.foldlM_cons]

/-- A value may start here, and goes to the innermost of the given frames. -/
def Starts (p : Progress) (stack : List Frame) : Prop :=
  ∀ t, t ≠ .closeArray → p.step t = startValue stack t

theorem starts_value (stack : List Frame) : (value stack).Starts stack := fun _ _ => rfl

theorem starts_firstItem (stack : List Frame) : (firstItem stack).Starts (.items [] :: stack) := by
  intro t ht
  cases t with
  | closeArray => exact absurd rfl ht
  | _ => rfl

end Progress

namespace Value
open Progress

/-- Wherever the value may start, a reader takes it in as a whole, whatever follows it. -/
def Reads (v : Value) : Prop :=
  ∀ p stack rest, Progress.Starts p stack → Token.EndsNumber rest →
    p.run (v.chars ++ rest) = (deliver v stack).run rest

/-- A value of one token is taken in. -/
theorem reads_of_scan {v : Value} {t : Token} (ht : t ≠ .closeArray)
    (hscan : ∀ rest, Token.EndsNumber rest → Token.scan (v.chars ++ rest) = some (t, rest))
    (hstart : ∀ stack, startValue stack t = some (deliver v stack)) : v.Reads := by
  intro p stack rest hp hrest
  rw [run_of_scan (hscan rest hrest), hp t ht, hstart]
  rfl

/-- Further items are taken in up to the end of the array. -/
theorem run_itemsChars {vs : List Value} (hvs : ∀ v ∈ vs, v.Reads) (before : List Value)
    (stack : List Frame) (rest : List Char) :
    (afterItem before stack).run (itemsChars vs ++ ']' :: rest) =
      (deliver (.array (before.reverse ++ vs)) stack).run rest := by
  induction vs generalizing before with
  | nil =>
    rw [itemsChars, List.nil_append, List.append_nil, run_of_scan rfl]
    rfl
  | cons v vs ih =>
    obtain ⟨hv, hvs⟩ := List.forall_mem_cons.1 hvs
    have hends : Token.EndsNumber (itemsChars vs ++ ']' :: rest) := by
      cases vs <;> exact Token.endsNumber_cons (by decide)
    rw [itemsChars, List.cons_append, List.cons_append, List.append_assoc, run_of_scan rfl]
    show (value (.items before :: stack)).run _ = _
    rw [hv _ _ _ (starts_value _) hends]
    show (afterItem (v :: before) stack).run _ = _
    rw [ih hvs, List.reverse_cons, List.append_assoc, List.singleton_append]

theorem reads_array {items : List Value} (hitems : ∀ v ∈ items, v.Reads) :
    (array items).Reads := by
  intro p stack rest hp _
  cases items with
  | nil =>
    rw [chars, List.cons_append, run_of_scan rfl, hp _ (by decide)]
    show (firstItem stack).run (']' :: rest) = _
    rw [run_of_scan rfl]
    rfl
  | cons v vs =>
    obtain ⟨hv, hvs⟩ := List.forall_mem_cons.1 hitems
    have hends : Token.EndsNumber (itemsChars vs ++ ']' :: rest) := by
      cases vs <;> exact Token.endsNumber_cons (by decide)
    simp only [chars, List.cons_append, List.append_assoc, List.nil_append]
    rw [run_of_scan rfl, hp _ (by decide)]
    show (firstItem stack).run _ = _
    rw [hv _ _ _ (starts_firstItem _) hends]
    exact run_itemsChars hvs [v] stack rest

/-- A member is taken in from its key on. -/
theorem run_member {v : Value} (hv : v.Reads) {p : Progress} {before : List (Content × Value)}
    {stack : List Frame} {s : String}
    (hp : p.step (.text (some s)) = some (colon before (some s) stack))
    {rest : List Char} (hrest : Token.EndsNumber rest) :
    p.run (contentChars (some s) ++ ':' :: v.chars ++ rest) =
      (afterMember ((some s, v) :: before) stack).run rest := by
  rw [List.append_assoc, List.cons_append, contentChars, Option.getD_some,
    run_of_scan (Token.scan_quote s _), hp, Option.bind_some]
  rw [run_of_scan rfl]
  show (value (.member before (some s) :: stack)).run _ = _
  exact hv _ _ _ (starts_value _) hrest

/-- Further members are taken in up to the end of the object. -/
theorem run_membersChars {ms : List (Content × Value)} (hkeys : ∀ m ∈ ms, ∃ s, m.1 = some s)
    (hms : ∀ m ∈ ms, m.2.Reads) (before : List (Content × Value)) (stack : List Frame)
    (rest : List Char) :
    (afterMember before stack).run (membersChars ms ++ Char.ofNat 125 :: rest) =
      (deliver (.object (before.reverse ++ ms)) stack).run rest := by
  induction ms generalizing before with
  | nil =>
    rw [membersChars, List.nil_append, List.append_nil, run_of_scan rfl]
    rfl
  | cons m ms ih =>
    obtain ⟨k, v⟩ := m
    obtain ⟨⟨s, rfl⟩, hkeys'⟩ := List.forall_mem_cons.1 hkeys
    obtain ⟨hv, hms'⟩ := List.forall_mem_cons.1 hms
    have hends : Token.EndsNumber (membersChars ms ++ Char.ofNat 125 :: rest) := by
      cases ms <;> exact Token.endsNumber_cons (by decide)
    rw [membersChars, List.cons_append, List.cons_append, List.cons_append, List.append_assoc,
      run_of_scan rfl]
    show (key before stack).run _ = _
    rw [run_member hv rfl hends, ih hkeys' hms', List.reverse_cons, List.append_assoc,
      List.singleton_append]

theorem reads_object {members : List (Content × Value)}
    (hkeys : ∀ m ∈ members, ∃ s, m.1 = some s) (hmembers : ∀ m ∈ members, m.2.Reads) :
    (object members).Reads := by
  intro p stack rest hp _
  cases members with
  | nil =>
    rw [chars, List.cons_append, run_of_scan rfl, hp _ (by decide)]
    show (firstKey stack).run _ = _
    rw [List.singleton_append, run_of_scan rfl]
    rfl
  | cons m ms =>
    obtain ⟨k, v⟩ := m
    obtain ⟨⟨s, rfl⟩, hkeys'⟩ := List.forall_mem_cons.1 hkeys
    obtain ⟨hv, hms⟩ := List.forall_mem_cons.1 hmembers
    have hends : Token.EndsNumber (membersChars ms ++ Char.ofNat 125 :: rest) := by
      cases ms <;> exact Token.endsNumber_cons (by decide)
    have hchars : (object ((some s, v) :: ms)).chars ++ rest =
        Char.ofNat 123 :: (contentChars (some s) ++ ':' :: v.chars ++
          (membersChars ms ++ Char.ofNat 125 :: rest)) := by
      simp [chars]
    rw [hchars, run_of_scan rfl, hp _ (by decide)]
    show (firstKey stack).run _ = _
    rw [run_member hv rfl hends]
    exact run_membersChars hkeys' hms [(some s, v)] stack rest

/-- A value that has a written form is read back from it. -/
theorem reads_of_written {v : Value} (hv : v.Written) : v.Reads := by
  induction hv with
  | null => exact reads_of_scan (by decide) (fun _ _ => rfl) fun _ => rfl
  | bool b =>
    cases b with
    | true => exact reads_of_scan (by decide) (fun _ _ => rfl) fun _ => rfl
    | false => exact reads_of_scan (by decide) (fun _ _ => rfl) fun _ => rfl
  | number hl =>
    exact reads_of_scan (by simp) (fun _ hrest => Token.scan_literal hl hrest) fun _ => rfl
  | text s => exact reads_of_scan (by simp) (fun rest _ => Token.scan_quote s rest) fun _ => rfl
  | array _ ih => exact reads_array ih
  | object hkeys _ ih => exact reads_object hkeys ih

end Value

/-- **What is written for a value is read back as this value.** -/
theorem parse_render {v : Value} (hv : v.Written) : parse v.render = some v := by
  have hrun := Value.reads_of_written hv _ [] [] (Progress.starts_value []) (fun c hc => nomatch hc)
  have hempty : Token.scanAll [] = some [] := by rw [Token.scanAll]
  have hdone : (Progress.value []).run v.chars = some (.done v) := by
    rw [List.append_nil] at hrun
    rw [hrun, Progress.run, hempty]
    rfl
  obtain ⟨ts, hts, hfold⟩ := Option.bind_eq_some_iff.1 hdone
  rw [parse, Value.render, String.toList_ofList, hts, Option.bind_eq_bind, Option.bind_some, hfold]
  rfl

end KetSim.Json
