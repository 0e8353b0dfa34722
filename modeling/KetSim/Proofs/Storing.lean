import KetSim.Proofs.Parsing
import KetSim.Stored.Circuit
import KetSim.Stored.Program
import Mathlib.Data.List.Nodup
/-!
# Stored values are read back

A stored value is kept (`Json.Codec.Kept`) if it can be written down and is read back from what was
written. Plain values are kept if they fit a machine word; lists, optional values and records are
kept if their parts are. From that the stored texts of programs and circuits, valid or not, hold all
that they were made from (`Stored.roundTrips`), and no two values have the same text.
-/
namespace KetSim

namespace Json.Codec

/-- The stored form of a value can be written down, and the value is read back from it. -/
structure Kept {α : Type} [Codec α] (a : α) : Prop where
  written : (encode a).Written
  decode_encode : decode (encode a) = some a

/-- A value that is kept is read back from its text. -/
theorem Kept.ofText?_toText {α : Type} [Codec α] {a : α} (ha : Kept a) :
    ofText? α (toText a) = some a := by
  rw [ofText?, toText, parse_render ha.written]
  exact ha.decode_encode

/-! ## Plain values -/

theorem kept_string (s : String) : Kept s := ⟨.text s, rfl⟩

abbrev SignedWord (z : Int) : Prop := -0x8000000000000000 ≤ z ∧ z ≤ 0x7FFFFFFFFFFFFFFF

theorem kept_int {z : Int} (hz : SignedWord z) : Kept z :=
  ⟨.number (Literal.written_ofInt z), Literal.toSignedWord?_ofInt hz.1 hz.2⟩

abbrev Word (n : Nat) : Prop := n < 1 <<< 64

theorem kept_nat {n : Nat} (hn : Word n) : Kept n :=
  ⟨.number (Literal.written_ofNat n), Literal.toWord?_ofNat hn⟩

/-! ## Values made of others -/

theorem kept_list {α : Type} [Codec α] {as : List α} (has : ∀ a ∈ as, Kept a) : Kept as := by
  refine ⟨.array fun v hv => ?_, ?_⟩
  · obtain ⟨a, ha, rfl⟩ := List.mem_map.1 hv
    exact (has a ha).written
  · show (as.map encode).mapM decode = some as
    induction as with
    | nil => rfl
    | cons a as ih =>
      obtain ⟨ha, has⟩ := List.forall_mem_cons.1 has
      rw [List.map_cons, List.mapM_cons, ha.decode_encode, ih has]
      rfl

theorem decode_option {α : Type} [Codec α] {v : Value} (hv : v ≠ .null) :
    (decode v : Option (Option α)) = (decode v).map some := by
  cases v with
  | null => exact absurd rfl hv
  | _ => rfl

/-- An absent value is kept as `null`, so what is there must not be. -/
theorem kept_option {α : Type} [Codec α] {o : Option α}
    (ho : ∀ a ∈ o, Kept a ∧ encode a ≠ .null) : Kept o := by
  cases o with
  | none => exact ⟨.null, rfl⟩
  | some a =>
    obtain ⟨ha, hnull⟩ := ho a rfl
    refine ⟨ha.written, (decode_option hnull).trans ?_⟩
    rw [ha.decode_encode]
    rfl

theorem Kept.optionalField? {α : Type} [Codec α] {o : Option α} (ho : Kept o) :
    optionalField? (some (encode o)) = some o :=
  ho.decode_encode

theorem kept_optionInt {o : Option Int} (ho : ∀ z ∈ o, SignedWord z) : Kept o :=
  kept_option fun z hz => ⟨kept_int (ho z hz), by intro h; cases h⟩

/-- A record can be written down if its fields can. -/
theorem written_record {fields : List (String × Value)} (hfields : ∀ f ∈ fields, f.2.Written) :
    (Value.record fields).Written := by
  refine .object (fun m hm => ?_) fun m hm => ?_
  · obtain ⟨f, -, rfl⟩ := List.mem_map.1 hm
    exact ⟨f.1, rfl⟩
  · obtain ⟨f, hf, rfl⟩ := List.mem_map.1 hm
    exact hfields f hf

theorem textKeys?_record (fields : List (String × Value)) :
    textKeys? (fields.map fun (k, v) => (some k, v)) = some fields := by
  induction fields with
  | nil => rfl
  | cons f fields ih =>
    rw [textKeys?] at ih ⊢
    rw [List.map_cons, List.mapM_cons, ih]
    rfl

theorem filter_of_nodup {fields : List (String × Value)} (hnames : (fields.map Prod.fst).Nodup)
    {f : String × Value} (hf : f ∈ fields) : fields.filter (·.1 == f.1) = [f] := by
  induction fields with
  | nil => cases hf
  | cons g fields ih =>
    rw [List.map_cons, List.nodup_cons] at hnames
    obtain ⟨hnew, hnames⟩ := hnames
    rcases List.mem_cons.1 hf with rfl | hf
    · have hrest : fields.filter (·.1 == f.1) = [] := by
        rw [List.filter_eq_nil_iff]
        rintro g hg heq
        exact hnew (List.mem_map.2 ⟨g, hg, beq_iff_eq.1 heq⟩)
      rw [List.filter_cons, if_pos (beq_self_eq_true _), hrest]
    · have hne : ¬ (g.1 == f.1) = true := fun heq =>
        hnew (List.mem_map.2 ⟨f, hf, (beq_iff_eq.1 heq).symm⟩)
      rw [List.filter_cons, if_neg hne, ih hnames hf]

theorem member?_of_mem {fields : List (String × Value)} (hnames : (fields.map Prod.fst).Nodup)
    {f : String × Value} (hf : f ∈ fields) : member? fields f.1 = some (some f.2) := by
  rw [member?, filter_of_nodup hnames hf]

/-- The fields of a record are found under their names. -/
theorem fields?_record {names : List String} (fields : List (String × Value))
    (hnames : fields.map Prod.fst = names) (hnodup : names.Nodup) :
    fields? names (Value.record fields) = some (fields.map fun f => some f.2) := by
  subst hnames
  have hmembers : ∀ fs : List (String × Value), (∀ f ∈ fs, f ∈ fields) →
      (fs.map Prod.fst).mapM (member? fields) = some (fs.map fun f => some f.2) := by
    intro fs hfs
    induction fs with
    | nil => rfl
    | cons f fs ih =>
      obtain ⟨hf, hfs⟩ := List.forall_mem_cons.1 hfs
      rw [List.map_cons, List.mapM_cons, member?_of_mem hnodup hf, ih hfs]
      rfl
  rw [Value.record, fields?, textKeys?_record]
  exact hmembers fields fun f hf => hf

/-- A carrying case can be written down if what it carries can. -/
theorem written_carryingCase (name : String) {v : Value} (hv : v.Written) :
    (carryingCase name v).Written :=
  written_record fun f hf => by
    obtain rfl := List.mem_singleton.1 hf
    exact hv

end Json.Codec

/-! ## Circuits -/

open Json Codec

theorem Gate.kept (g : Gate) : Kept g := ⟨.text _, Stored.gateOfTag?_gateTag g⟩

def Qubit.Storable (q : Qubit) : Prop := Word q.index

theorem Qubit.Storable.kept {q : Qubit} (hq : q.Storable) : Kept q := by
  obtain ⟨hwritten, hdecode⟩ := kept_nat hq
  refine ⟨hwritten, ?_⟩
  show (decode (encode q.index)).map Qubit.mk = some q
  rw [hdecode]
  rfl

/-- The qubits of the operation fit words; they need not fit the gate. -/
def Operation.Storable (op : Operation) : Prop := ∀ q ∈ op.targets, q.Storable

theorem Operation.Storable.kept {op : Operation} (hop : op.Storable) : Kept op := by
  have hgate := op.gate.kept
  have htargets : Kept op.targets := kept_list fun q hq => (hop q hq).kept
  refine ⟨written_record (by simp [hgate.written, htargets.written]), ?_⟩
  have hfields : fields? ["kind", "targets"] (encode op) =
      some [some (encode op.gate), some (encode op.targets)] :=
    fields?_record _ rfl (by decide)
  show (fields? ["kind", "targets"] (encode op)).bind _ = some op
  simp [hfields, hgate.decode_encode, htargets.decode_encode]

structure Circuit.Storable (c : Circuit) : Prop where
  width : Word c.width
  operations : ∀ op ∈ c.operations, op.Storable

theorem Circuit.Storable.kept {c : Circuit} (hc : c.Storable) : Kept c := by
  have hwidth := kept_nat hc.width
  have hoperations : Kept c.operations := kept_list fun op hop => (hc.operations op hop).kept
  refine ⟨written_record (by simp [hwidth.written, hoperations.written]), ?_⟩
  have hfields : fields? ["register_size", "operations"] (encode c) =
      some [some (encode c.width), some (encode c.operations)] :=
    fields?_record _ rfl (by decide)
  show (fields? ["register_size", "operations"] (encode c)).bind _ = some c
  simp [hfields, hwidth.decode_encode, hoperations.decode_encode]

/-! ## Programs -/

theorem Statement.Kind.kept (k : Statement.Kind) : Kept k := by
  refine ⟨.text _, ?_⟩
  cases k <;> rfl

namespace Statement

def Storable : Statement → Prop
  | qubits _ size => ∀ z ∈ size, SignedWord z
  | bits _ size => ∀ z ∈ size, SignedWord z
  | gateCall _ targets => ∀ z ∈ targets, SignedWord z
  | measurement qubit bit => SignedWord qubit ∧ ∀ z ∈ bit, SignedWord z
  | barrier targets => ∀ z ∈ targets, SignedWord z
  | _ => True

end Statement

namespace Stored

theorem written_encodeDeclaration (identifier : String) {size : Option Int} (hsize : Kept size) :
    (encodeDeclaration identifier size).Written :=
  written_record (by simp [(kept_string identifier).written, hsize.written])

theorem decodeDeclaration_encodeDeclaration (identifier : String) {size : Option Int}
    (hsize : Kept size) :
    decodeDeclaration (encodeDeclaration identifier size) = some (identifier, size) := by
  have hfields : fields? ["identifier", "size"] (encodeDeclaration identifier size) =
      some [some (encode identifier), some (encode size)] :=
    fields?_record _ rfl (by decide)
  simp [decodeDeclaration, hfields, (kept_string identifier).decode_encode, hsize.optionalField?]

/-- What a statement carries can be written down. -/
theorem written_statementFields {s : Statement} (hs : s.Storable) :
    (statementFields s).Written := by
  cases s with
  | version text => exact (kept_string text).written
  | inclusion path => exact (kept_string path).written
  | qubits identifier size => exact written_encodeDeclaration identifier (kept_optionInt hs)
  | bits identifier size => exact written_encodeDeclaration identifier (kept_optionInt hs)
  | gateCall name targets =>
    have htargets : Kept targets := kept_list fun z hz => kept_int (hs z hz)
    exact written_record (by simp [(kept_string name).written, htargets.written])
  | measurement qubit bit =>
    exact written_record (by simp [(kept_int hs.1).written, (kept_optionInt hs.2).written])
  | barrier qubits =>
    have hqubits : Kept qubits := kept_list fun z hz => kept_int (hs z hz)
    exact written_record (by simp [hqubits.written])
  | other text => exact (kept_string text).written

/-- A statement is read back from its kind and what it carries. -/
theorem statementOfFields?_statementFields {s : Statement} (hs : s.Storable) :
    statementOfFields? s.kind (statementFields s) = some s := by
  cases s with
  | version text =>
    simp [Statement.kind, statementOfFields?, statementFields, (kept_string text).decode_encode]
  | inclusion path =>
    simp [Statement.kind, statementOfFields?, statementFields, (kept_string path).decode_encode]
  | qubits identifier size =>
    simp [Statement.kind, statementOfFields?, statementFields,
      decodeDeclaration_encodeDeclaration identifier (kept_optionInt hs)]
  | bits identifier size =>
    simp [Statement.kind, statementOfFields?, statementFields,
      decodeDeclaration_encodeDeclaration identifier (kept_optionInt hs)]
  | gateCall name targets =>
    have htargets : Kept targets := kept_list fun z hz => kept_int (hs z hz)
    have hfields : fields? ["name", "targets"] (statementFields (.gateCall name targets)) =
        some [some (encode name), some (encode targets)] :=
      fields?_record _ rfl (by decide)
    simp [Statement.kind, statementOfFields?, hfields, (kept_string name).decode_encode,
      htargets.decode_encode]
  | measurement qubit bit =>
    have hfields : fields? ["qubit", "bit"] (statementFields (.measurement qubit bit)) =
        some [some (encode qubit), some (encode bit)] :=
      fields?_record _ rfl (by decide)
    simp [Statement.kind, statementOfFields?, hfields, (kept_int hs.1).decode_encode,
      (kept_optionInt hs.2).optionalField?]
  | barrier qubits =>
    have hqubits : Kept qubits := kept_list fun z hz => kept_int (hs z hz)
    have hfields : fields? ["qubits"] (statementFields (.barrier qubits)) =
        some [some (encode qubits)] :=
      fields?_record _ rfl (by decide)
    simp [Statement.kind, statementOfFields?, hfields, hqubits.decode_encode]
  | other text =>
    simp [Statement.kind, statementOfFields?, statementFields, (kept_string text).decode_encode]

end Stored

theorem Statement.Storable.kept {s : Statement} (hs : s.Storable) : Kept s := by
  refine ⟨written_carryingCase _ (Stored.written_statementFields hs), ?_⟩
  show ((Statement.Kind.ofName? s.kind.name).bind fun k =>
    Stored.statementOfFields? k (Stored.statementFields s)) = some s
  rw [Statement.Kind.ofName?_name]
  exact Stored.statementOfFields?_statementFields hs

def Program.Storable (p : Program) : Prop := ∀ s ∈ p.statements, s.Storable

theorem Program.Storable.kept {p : Program} (hp : p.Storable) : Kept p := by
  have hstatements : Kept p.statements := kept_list fun s hs => (hp s hs).kept
  refine ⟨written_record (by simp [hstatements.written]), ?_⟩
  have hfields : fields? ["records"] (encode p) = some [some (encode p.statements)] :=
    fields?_record _ rfl (by decide)
  show (fields? ["records"] (encode p)).bind _ = some p
  simp [hfields, hstatements.decode_encode]

/-! ## Texts -/

namespace Stored

/-- Values with the property are read back from their texts, so no two of them have the same. -/
structure RoundTrips {α : Type} [Codec α] (P : α → Prop) : Prop where
  ofText?_toText : ∀ a, P a → ofText? α (toText a) = some a
  eq_of_toText : ∀ a b, P a → P b → toText a = toText b → a = b

theorem roundTrips_of_kept {α : Type} [Codec α] {P : α → Prop} (hP : ∀ a, P a → Kept a) :
    RoundTrips P where
  ofText?_toText a ha := (hP a ha).ofText?_toText
  eq_of_toText a b ha hb htext := by
    have hback := (hP a ha).ofText?_toText
    rw [htext, (hP b hb).ofText?_toText] at hback
    exact (Option.some.inj hback).symm

/-- **Stored texts hold all that they were made from.** Whatever the texts in a statement are, and
whether or not the operations of a circuit fit its register, the value is read back. -/
theorem roundTrips :
    RoundTrips Statement.Storable ∧ RoundTrips Program.Storable ∧
      RoundTrips (fun _ : Gate => True) ∧ RoundTrips (fun _ : Statement.Kind => True) ∧
      RoundTrips Qubit.Storable ∧ RoundTrips Operation.Storable ∧ RoundTrips Circuit.Storable :=
  ⟨roundTrips_of_kept fun _ hs => hs.kept, roundTrips_of_kept fun _ hp => hp.kept,
    roundTrips_of_kept fun g _ => g.kept, roundTrips_of_kept fun k _ => k.kept,
    roundTrips_of_kept fun _ hq => hq.kept, roundTrips_of_kept fun _ hop => hop.kept,
    roundTrips_of_kept fun _ hc => hc.kept⟩

/-- A text with characters of every kind, the least and the largest numbers, and a circuit that no
engine would run. -/
theorem roundTrips_extremes :
    let text := String.ofList ['"', '\\', '/', '\n', Char.ofNat 0, Char.ofNat 0x1F, Char.ofNat 0x7F,
      Char.ofNat 0xE9, Char.ofNat 0xFFFF, Char.ofNat 0x1D11E]
    let p : Program := ⟨[.other text, .qubits text (some (-0x8000000000000000)), .bits text none,
      .gateCall text [], .measurement 0x7FFFFFFFFFFFFFFF none]⟩
    let c : Circuit := ⟨0, [⟨.cnot, []⟩, ⟨.h, [⟨0xFFFFFFFFFFFFFFFF⟩, ⟨0⟩]⟩]⟩
    (p.Storable ∧ ofText? Program (toText p) = some p) ∧
      c.Storable ∧ ofText? Circuit (toText c) = some c := by
  intro text p c
  have hp : p.Storable := by
    simp only [Program.Storable, p]
    simp [Statement.Storable, SignedWord]
  have hc : c.Storable :=
    ⟨by decide, by simp [Operation.Storable, Qubit.Storable, c]⟩
  obtain ⟨-, hprogram, -, -, -, -, hcircuit⟩ := roundTrips
  exact ⟨⟨hp, hprogram.ofText?_toText p hp⟩, hc, hcircuit.ofText?_toText c hc⟩

end Stored

end KetSim
