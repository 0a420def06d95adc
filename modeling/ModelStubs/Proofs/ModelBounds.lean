/-
# The bounds of a cardinality

A bound is read exactly or not at all. If a number is put in the place of a bound, the text
is read if and only if the number is spelled by digits alone and does not exceed 32 bits,
and then the bound is this number. There is no length from which on it would wrap around or
be rounded: a longer number is refused, and so are one with a minus sign, be it minus zero,
a fraction or an exponent. This is so for a cardinality that is read by itself, and for that
of an attribute in any element of a document (`Model.bounds_read_exactly`). There the number
goes through the values that the element is gathered in before its kind is known.

The rest of the text is the same for all numbers, and is assumed to be in order: with a zero
in the place of the bound it is read.

Key definitions: `Model.Bound`, `Model.AttributePlace`, `Model.AttributeHole`,
`Model.BoundHole`, `Model.ReadsCount`.
Key theorems: `Model.Cardinality.focus_bound`, `Model.Document.focus_card`,
`Model.bounds_read_exactly`.
-/
import ModelStubs.Proofs.Json.Holes
import ModelStubs.Proofs.Json.NumberLiterals
import ModelStubs.Proofs.ModelReadings

namespace ModelStubs
namespace Model

open Json (Shape RecordShape Variants Tree Meaning Frame Focus FieldFrame TaggedFrame NumberToken
  AllDigits fill quote)

/-! ### Places of attributes and bounds -/

/-- One of the two bounds. -/
inductive Bound
  | inf
  | sup
deriving DecidableEq, Repr

namespace Bound

/-- The name of its field. -/
def name : Bound → String
  | inf => "inf"
  | sup => "sup"

/-- The place of its field. -/
def index : Bound → Nat
  | inf => 0
  | sup => 1

/-- The bound, if there is one. -/
def of : Bound → Cardinality → Option UInt32
  | inf, c => some c.inf
  | sup, c => c.sup

end Bound

/-- Where an element has an attribute. -/
inductive AttributePlace
  /-- An attribute of a class, by its number. -/
  | inClass (j : Nat)
  /-- An input of a function, by its number. -/
  | input (j : Nat)
  /-- The output of a function. -/
  | output
deriving DecidableEq, Repr

/-- The function, if the element is one. -/
def Element.function? : Element → Option Signature
  | .ofFunction f => some f
  | _ => none

/-- The attribute at the place. -/
def Element.attributeAt : Element → AttributePlace → Option Attribute
  | .ofClass c, .inClass j => c.attributes[j]?
  | .ofFunction f, .input j => f.inputs[j]?
  | .ofFunction f, .output => f.output
  | _, _ => none

/-- The bound of an attribute of an element of the document. -/
def Document.boundAt (d : Document) (i : Nat) (p : AttributePlace) (b : Bound) :
    Option UInt32 :=
  (d.elements[i]?).bind fun e => (e.attributeAt p).bind fun a => b.of a.card

/-- The hole is an attribute of an element, in either notation of the element. -/
inductive AttributeHole : AttributePlace → List Frame → Prop
  | inClass {f : Frame} {before after : List Tree} :
      TaggedFrame "kind" "class" "attributes" 2 f →
      AttributeHole (.inClass before.length) [f, .entry before after]
  | input {f : Frame} {before after : List Tree} :
      TaggedFrame "kind" "function" "inputs" 2 f →
      AttributeHole (.input before.length) [f, .entry before after]
  | output {f : Frame} : TaggedFrame "kind" "function" "output" 3 f → AttributeHole .output [f]

/-- The hole is a bound of an attribute of an element of a document. Each record around it
may be in either notation. -/
inductive BoundHole (i : Nat) (p : AttributePlace) (b : Bound) : List Frame → Prop
  | mk {elements card bound : Frame} {before after : List Tree} {h : List Frame} :
      FieldFrame "elements" 2 elements → before.length = i → AttributeHole p h →
      FieldFrame "card" 2 card → FieldFrame b.name b.index bound →
      BoundHole i p b ((elements :: .entry before after :: (h ++ [card])) ++ [bound])

/-! ### The shapes focus on their parts -/

section Focus

variable {room : Nat} {f : Frame}

theorem Cardinality.focus_inf (hf : FieldFrame "inf" 0 f) :
    Focus (Cardinality.shape.means room) [f] (.scalar .count) fun c => some c.inf :=
  RecordShape.focus (Json.Fields.focus_first (by decide)) hf

theorem Cardinality.focus_sup (hf : FieldFrame "sup" 1 f) :
    Focus (Cardinality.shape.means room) [f] (.optional (.scalar .count)) fun c => some c.sup :=
  RecordShape.focus
    (Json.Fields.focus_later (Json.Fields.focus_first (by decide)) (by decide)) hf

theorem Attribute.focus_card (hf : FieldFrame "card" 2 f) :
    Focus (Attribute.shape.means room) [f] (Cardinality.shape.means (room - 1))
      fun a => some a.card :=
  RecordShape.focus (Json.Fields.focus_third (by decide) (by decide) (by decide)) hf

/-- A list of attributes focuses on the cardinality of each. -/
theorem Attribute.focus_card_of_entry (before after : List Tree) (hf : FieldFrame "card" 2 f) :
    Focus ((Shape.list Attribute.shape).means room) [.entry before after, f]
      (Cardinality.shape.means (room - 1 - 1))
      fun as => (as[before.length]?).bind fun a => some a.card :=
  (Focus.list room (Attribute.shape.means (room - 1)) before after).trans
    (Attribute.focus_card hf)

theorem DataClass.focus_attributes (hf : FieldFrame "attributes" 2 f) :
    Focus (DataClass.record.means room) [f] ((Shape.list Attribute.shape).means (room - 1))
      fun c => some c.attributes :=
  RecordShape.focus (Json.Fields.focus_third (by decide) (by decide) (by decide)) hf

theorem Signature.focus_inputs (hf : FieldFrame "inputs" 2 f) :
    Focus (Signature.record.means room) [f] ((Shape.list Attribute.shape).means (room - 1))
      fun s => some s.inputs :=
  RecordShape.focus (Json.Fields.focus_third (by decide) (by decide) (by decide)) hf

theorem Signature.focus_output (hf : FieldFrame "output" 3 f) :
    Focus (Signature.record.means room) [f] ((Shape.optional Attribute.shape).means (room - 1))
      fun s => some s.output :=
  RecordShape.focus
    (Json.Fields.focus_later (Json.Fields.focus_third (by decide) (by decide) (by decide))
      (by decide)) hf

theorem Document.focus_elements (hf : FieldFrame "elements" 2 f) :
    Focus (Document.shape.means room) [f] ((Shape.list Element.shape).means (room - 1))
      fun d => some d.elements :=
  RecordShape.focus (Json.Fields.focus_third (by decide) (by decide) (by decide)) hf

/-- The function of an element is picked as its fourth record. -/
theorem Element.picks_function : ∃ pick, variants.Picks "function" Signature.record pick ∧
    ∀ e : Element, pick e.parts = e.function? := by
  refine ⟨_, Variants.picks_later (Variants.picks_later (Variants.picks_later
    Variants.picks_first (by decide)) (by decide)) (by decide), fun e => ?_⟩
  cases e <;> rfl

/-- The class of an element is picked as its first record. -/
theorem Element.picks_class : ∃ pick, variants.Picks "class" DataClass.record pick ∧
    ∀ e : Element, pick e.parts = e.class? := by
  refine ⟨_, Variants.picks_first, fun e => ?_⟩
  cases e <;> rfl

/-- An element focuses on the cardinalities of its attributes. The output of a function may be
null, but not if there is a cardinality in it. -/
theorem Element.focus_card (room : Nat) {p : AttributePlace} {h : List Frame} (hh : AttributeHole p h)
    (hf : FieldFrame "card" 2 f) :
    ∃ less, Focus (Element.shape.means room) (h ++ [f]) (Cardinality.shape.means less)
      fun e => (e.attributeAt p).bind fun a => some a.card := by
  cases hh with
  | @inClass f' before after hf' =>
    obtain ⟨pick, hpick, hclass⟩ := Element.picks_class
    have hattributes := Focus.tagged lawful_element hpick
      (fun _ => @DataClass.focus_attributes room _) (by decide) hf'
    refine ⟨_, (hattributes.trans (Attribute.focus_card_of_entry before after hf)).congr
      fun e => ?_⟩
    rw [hclass]
    cases e <;> rfl
  | @input f' before after hf' =>
    obtain ⟨pick, hpick, hfunction⟩ := Element.picks_function
    have hinputs := Focus.tagged lawful_element hpick
      (fun _ => @Signature.focus_inputs room _) (by decide) hf'
    refine ⟨_, (hinputs.trans (Attribute.focus_card_of_entry before after hf)).congr
      fun e => ?_⟩
    rw [hfunction]
    cases e <;> rfl
  | output hf' =>
    obtain ⟨pick, hpick, hfunction⟩ := Element.picks_function
    have houtput := Focus.tagged lawful_element hpick
      (fun _ => @Signature.focus_output room _) (by decide) hf'
    refine ⟨_, (houtput.trans (Attribute.focus_card hf).optional).congr fun e => ?_⟩
    rw [hfunction]
    cases e <;> rfl

/-- A document focuses on the cardinalities of the attributes of its elements. -/
theorem Document.focus_card (room : Nat) {f' : Frame} {p : AttributePlace} {h : List Frame}
    (before after : List Tree) (hf : FieldFrame "elements" 2 f) (hh : AttributeHole p h)
    (hf' : FieldFrame "card" 2 f') :
    ∃ less, Focus (Document.shape.means room) (f :: .entry before after :: (h ++ [f']))
      (Cardinality.shape.means less) fun d => (d.elements[before.length]?).bind fun e =>
        (e.attributeAt p).bind fun a => some a.card := by
  obtain ⟨less, hcard⟩ := Element.focus_card (room - 1 - 1) hh hf'
  have hentry := (Focus.list (room - 1) (Element.shape.means (room - 1 - 1)) before after).trans
    hcard
  exact ⟨less, (Document.focus_elements hf).trans hentry⟩

end Focus

/-! ### Numbers in the place of a bound -/

section Numbers

variable {α β : Type}

/-- Of all numbers, counts have this meaning, and no others. -/
structure TakesCounts (N : Meaning β) (count : β → Option UInt32) : Prop where
  exists_count : ∀ {w : List Char} {b : β}, NumberToken w → N (.scalar w) b →
    ∃ n, count b = some n ∧ Meaning.scalar .count (.scalar w) n
  exists_value : ∀ {w : List Char} {n : UInt32}, NumberToken w →
    Meaning.scalar .count (.scalar w) n → ∃ b, N (.scalar w) b

theorem takesCounts_scalar : TakesCounts (.scalar .count) some where
  exists_count {_ n} _ hn := ⟨n, rfl, hn⟩
  exists_value {_ n} _ hn := ⟨n, hn⟩

theorem takesCounts_optional : TakesCounts (.optional (.scalar .count)) id where
  exists_count {w b} hw hb := by
    obtain ⟨hnull, -⟩ | ⟨-, n, hn, rfl⟩ := hb
    · exact absurd hnull hw.not_isNull
    · exact ⟨n, rfl, hn⟩
  exists_value {w n} hw hn := ⟨some n, .inr ⟨hw.not_isNull, n, hn, rfl⟩⟩

/-- In the hole a number is read as a count: if it is all digits and has no more than 32
bits, and then as what its digits spell. The text with a zero in the hole is read. -/
def ReadsCount (s : Shape α) (h : List Frame) (get : α → Option UInt32) : Prop :=
  ∀ (w : List Char) (source zero : String) (a₀ : α), NumberToken w →
    (fill h (.scalar w)).Text source → (fill h (.scalar ['0'])).Text zero →
    s.ofText zero = .ok a₀ →
    ((∃ a, s.ofText source = .ok a) ↔ AllDigits w ∧ Nat.ofDigitChars 10 w 0 ≤ 4294967295) ∧
      ∀ a, s.ofText source = .ok a →
        (get a).map UInt32.toNat = some (Nat.ofDigitChars 10 w 0)

/-- A shape that focuses on a count reads it. -/
theorem readsCount_of_focus {s : Shape α} (hlawful : s.Lawful) {h : List Frame} {N : Meaning β}
    {get : α → Option β} {count : β → Option UInt32} {whole : α → Option UInt32}
    (hfocus : Focus (s.means Json.nesting) h N get) (hcounts : TakesCounts N count)
    (hwhole : ∀ a, whole a = (get a).bind count) : ReadsCount s h whole := by
  intro w source zero a₀ hw hsource hzero hread
  have hbase := (Shape.ofText_iff hlawful hzero).mp hread
  have hpart : ∀ a, s.ofText source = .ok a → ∃ n : UInt32, whole a = some n ∧
      AllDigits w ∧ Nat.ofDigitChars 10 w 0 = n.toNat := by
    intro a ha
    obtain ⟨b, hb, hget⟩ := hfocus.part ((Shape.ofText_iff hlawful hsource).mp ha)
    obtain ⟨n, hn, hmeans⟩ := hcounts.exists_count hw hb
    exact ⟨n, by rw [hwhole, hget, Option.bind_some, hn], hw.means_count_iff.mp hmeans⟩
  refine ⟨⟨?_, ?_⟩, ?_⟩
  · rintro ⟨a, ha⟩
    obtain ⟨n, -, hdigits, hvalue⟩ := hpart a ha
    have hlt : n.toNat < 4294967296 := n.toNat_lt
    exact ⟨hdigits, by omega⟩
  · rintro ⟨hdigits, hle⟩
    have hvalue : (Nat.ofDigitChars 10 w 0).toUInt32.toNat = Nat.ofDigitChars 10 w 0 :=
      UInt32.toNat_ofNat_of_lt (Nat.lt_succ_of_le hle)
    have hmeans := hw.means_count_iff.mpr ⟨hdigits, hvalue.symm⟩
    obtain ⟨b, hb⟩ := hcounts.exists_value hw hmeans
    have hlike : Json.ReadableLike (.scalar ['0']) (.scalar w) := by
      intro room _
      obtain ⟨_, v, he, hv, -⟩ := hmeans
      cases he
      exact Json.readable_scalar_iff.mpr ⟨v, hv⟩
    obtain ⟨a, ha⟩ := hfocus.whole hbase hlike hb
    exact ⟨a, (Shape.ofText_iff hlawful hsource).mpr ha⟩
  · intro a ha
    obtain ⟨n, hn, -, hvalue⟩ := hpart a ha
    simp only [hn, hvalue, Option.map_some]

end Numbers

/-- A cardinality focuses on either bound, and the number in its place is a count. -/
theorem Cardinality.focus_bound {b : Bound} {f : Frame} (hf : FieldFrame b.name b.index f) :
    ∃ (β : Type) (N : Meaning β) (get : Cardinality → Option β) (count : β → Option UInt32),
      (∀ room, Focus (Cardinality.shape.means room) [f] N get) ∧ TakesCounts N count ∧
        ∀ c, b.of c = (get c).bind count := by
  cases b with
  | inf => exact ⟨_, _, _, _, fun _ => Cardinality.focus_inf hf, takesCounts_scalar, fun _ => rfl⟩
  | sup =>
    exact ⟨_, _, _, _, fun _ => Cardinality.focus_sup hf, takesCounts_optional, fun _ => rfl⟩

/-- **Bounds are read exactly.** In the place of a bound every number that is all digits and
has at most 32 bits is read, as itself, and every other number is refused: in a cardinality
by itself, and in that of any attribute in any element of a document. -/
theorem bounds_read_exactly (b : Bound) :
    (∀ f, FieldFrame b.name b.index f → ReadsCount Cardinality.shape [f] b.of) ∧
    ∀ i p h, BoundHole i p b h → ReadsCount Document.shape h fun d => d.boundAt i p b := by
  refine ⟨fun f hf => ?_, fun i p h hh => ?_⟩
  · obtain ⟨_, N, get, count, hfocus, hcounts, hof⟩ := Cardinality.focus_bound hf
    exact readsCount_of_focus (by decide) (hfocus _) hcounts hof
  · obtain @⟨elements, card, bound, before, after, h, hf, rfl, hattribute, hf', hbound⟩ := hh
    obtain ⟨less, hcard⟩ := Document.focus_card Json.nesting before after hf hattribute hf'
    obtain ⟨_, N, get, count, hfocus, hcounts, hof⟩ := Cardinality.focus_bound hbound
    refine readsCount_of_focus lawful_document (hcard.trans (hfocus less)) hcounts fun d => ?_
    simp only [Document.boundAt, hof, Option.bind_assoc, Option.bind_some]

/-! ### The last number and the first beyond it -/

/-- The lower bound of the cardinality of the sample. -/
def infFrame : Frame := .member [] (quote "inf") [(quote "sup", .scalar ['n', 'u', 'l', 'l'])]

/-- The brackets of a document around the cardinality of the sample, whose class ends with
its attributes. -/
def sampleHole : List Frame :=
  [.member [(quote "namespace", .scalar (quote "")), (quote "version", .scalar (quote ""))]
      (quote "elements") [],
    .entry [] [],
    .member [(quote "kind", .scalar (quote "class")), (quote "name", .scalar (quote "A")),
      (quote "definition", .scalar (quote ""))] (quote "attributes") [],
    .entry [] [],
    .member [(quote "name", .scalar (quote "x")), (quote "type", .scalar (quote "string"))]
      (quote "card") [],
    infFrame]

theorem boundHole_sampleHole : BoundHole 0 (.inClass 0) .inf sampleHole := by
  have hclass : TaggedFrame "kind" "class" "attributes" 2 (.member
      [(quote "kind", .scalar (quote "class")), (quote "name", .scalar (quote "A")),
        (quote "definition", .scalar (quote ""))] (quote "attributes") []) :=
    .member (Json.stringToken_quote _) List.mem_cons_self (Json.stringToken_quote _)
      (Json.isText_quote _)
  exact @BoundHole.mk _ _ _ _ _ _ [] [] _ (.member (Json.stringToken_quote _)) rfl
    (@AttributeHole.inClass _ [] [] hclass) (.member (Json.stringToken_quote _))
    (.member (Json.stringToken_quote _))

/-- The document of the sample with other digits for the lower bound. -/
def sampleText (digits : String) : String :=
  "\x7b\"namespace\":\"\",\"version\":\"\",\"elements\":[" ++
    "\x7b\"kind\":\"class\",\"name\":\"A\",\"definition\":\"\",\"attributes\":[" ++
    "\x7b\"name\":\"x\",\"type\":\"string\",\"card\":\x7b\"inf\":" ++ digits ++
    ",\"sup\":null\x7d\x7d]\x7d]\x7d"

theorem proper_sample {w : List Char} (hw : NumberToken w) :
    (fill [infFrame] (.scalar w)).Proper ∧ (fill sampleHole (.scalar w)).Proper := by
  have hcard : (Tree.object [(quote "inf", .scalar w),
      (quote "sup", .scalar ['n', 'u', 'l', 'l'])]).Proper :=
    .cons (.scalar hw.isToken) (.cons (.scalar ⟨⟨'n', _, rfl, by decide⟩, rfl⟩) Tree.proper_nil)
  exact ⟨hcard, proper_document (proper_class (proper_attribute hcard))⟩

/-- A number without sign, fraction and exponent. -/
theorem numberToken_digits {w : List Char} (h : Json.IsWhole w) : NumberToken w := by
  have hnumber := NumberToken.positive h .absent .absent
  rwa [List.append_nil, List.append_nil] at hnumber

/-- The text is that of the tree with the digits in the hole. -/
theorem text_sample {w : List Char} {digits : String} (hw : NumberToken w)
    (h : String.ofList (fill sampleHole (.scalar w)).compact = sampleText digits) :
    (fill sampleHole (.scalar w)).Text (sampleText digits) :=
  h ▸ (proper_sample hw).2.text

/-- The sample has a zero there. -/
theorem ofText_sampleText :
    Document.ofText (sampleText "0") = .ok ⟨"", "", [.ofClass sampleClass]⟩ := by
  have hcompact : Document.shape.compact ⟨"", "", [.ofClass sampleClass]⟩ = sampleText "0" := by
    decide +kernel
  exact hcompact ▸ Document.ofText_compact _

/-- The largest number of 32 bits. -/
def largestDigits : List Char := ['4', '2', '9', '4', '9', '6', '7', '2', '9', '5']

/-- The number behind it. -/
def nextDigits : List Char := ['4', '2', '9', '4', '9', '6', '7', '2', '9', '6']

/-- The largest number of 32 bits is read and the next one is refused. -/
theorem bounds_read_exactly_sample :
    BoundHole 0 (.inClass 0) .inf sampleHole ∧
    (∃ d, Document.ofText (sampleText "4294967295") = .ok d ∧
      (d.boundAt 0 (.inClass 0) .inf).map UInt32.toNat = some 4294967295) ∧
    ¬ ∃ d, Document.ofText (sampleText "4294967296") = .ok d := by
  have hlargest : NumberToken largestDigits := numberToken_digits (.digits (by decide) (by decide))
  have hnext : NumberToken nextDigits := numberToken_digits (.digits (by decide) (by decide))
  have htext : (fill sampleHole (.scalar ['0'])).Text (sampleText "0") :=
    text_sample (numberToken_digits .zero) (by decide +kernel)
  have hreads : ∀ w source, NumberToken w → (fill sampleHole (.scalar w)).Text source →
      ((∃ d, Document.ofText source = .ok d) ↔
        AllDigits w ∧ Nat.ofDigitChars 10 w 0 ≤ 4294967295) ∧
      ∀ d, Document.ofText source = .ok d →
        (d.boundAt 0 (.inClass 0) .inf).map UInt32.toNat = some (Nat.ofDigitChars 10 w 0) :=
    fun w source hw hsource => (bounds_read_exactly .inf).2 0 (.inClass 0) sampleHole
      boundHole_sampleHole w source _ _ hw hsource htext ofText_sampleText
  obtain ⟨hread, hvalue⟩ := hreads _ (sampleText "4294967295") hlargest
    (text_sample hlargest (by decide +kernel))
  obtain ⟨d, hd⟩ := hread.mpr ⟨by decide, by decide⟩
  refine ⟨boundHole_sampleHole, ⟨d, hd, hvalue d hd⟩, fun h => ?_⟩
  have hsmall := ((hreads _ (sampleText "4294967296") hnext
    (text_sample hnext (by decide +kernel))).1.mp h).2
  revert hsmall
  decide

end Model
end ModelStubs
