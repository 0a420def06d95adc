/-
# What tokens spell

A string has many spellings. Between the quotes a character stands for itself, behind a
backslash under a letter, or as the four hexadecimal digits of its code; a character whose
code has no four digits stands as its two halves. `Json.SpellsChars` is the grammar of this,
and every text of the grammar is read as its string, be it a value or a key
(`Json.StringToken.head`, `Json.StringToken.keyName`).

A count is spelled by its decimal digits. Null and the truth values have one spelling each.

Key definitions: `Json.HexDigits`, `Json.SpellsChars`, `Json.StringToken`, `Json.flagWord`.
Key theorems: `Json.SpellsChars.quoted`, `Json.StringToken.keyName`, `Json.stringToken_quote`.
-/
import ModelStubs.Proofs.Json.PlainTrees

namespace ModelStubs
namespace Json

/-! ### Hexadecimal digits -/

/-- The digit of a number below 16, in lower or upper case. -/
def HexDigit (c : Char) (n : Nat) : Prop :=
  n < 16 ∧ (c = Nat.digitChar n ∨ c = (Nat.digitChar n).toUpper)

/-- Four digits and the number that they spell. -/
inductive HexDigits : List Char → Nat → Prop
  | group {a b c d : Char} {i j k l : Nat} : HexDigit a i → HexDigit b j → HexDigit c k →
      HexDigit d l → HexDigits [a, b, c, d] (((i * 16 + j) * 16 + k) * 16 + l)

theorem HexDigit.hexValue? {c : Char} {n : Nat} (h : HexDigit c n) :
    Json.hexValue? c = some n := by
  have hall : ∀ m : Fin 16, Json.hexValue? (Nat.digitChar m.val) = some m.val ∧
      Json.hexValue? (Nat.digitChar m.val).toUpper = some m.val := by decide
  obtain ⟨hn, rfl | rfl⟩ := h
  · exact (hall ⟨n, hn⟩).1
  · exact (hall ⟨n, hn⟩).2

theorem HexDigits.hexGroup {x : List Char} {n : Nat} (h : HexDigits x n) (rest : List Char) :
    Json.hexGroup (x ++ rest) = .ok (n, rest) := by
  cases h with
  | group ha hb hc hd =>
    simp only [List.cons_append, List.nil_append, Json.hexGroup, ha.hexValue?, hb.hexValue?,
      hc.hexValue?, hd.hexValue?]

/-! ### Spellings of characters -/

/-- The characters that have a letter to be written with, behind the letters. -/
def letterEscapes : List (Char × Char) :=
  [('"', '"'), ('\\', '\\'), ('/', '/'), ('b', '\x08'), ('f', '\x0c'), ('n', '\n'), ('r', '\r'),
    ('t', '\t')]

/-- The first text, up to a quote, spells the characters of the second. -/
inductive SpellsChars : List Char → List Char → Prop
  | nil : SpellsChars [] []
  | plain {c : Char} {w s : List Char} : c ≠ '"' → c ≠ '\\' → 0x20 ≤ c.toNat →
      SpellsChars w s → SpellsChars (c :: w) (c :: s)
  | letter {l c : Char} {w s : List Char} : (l, c) ∈ letterEscapes → SpellsChars w s →
      SpellsChars ('\\' :: l :: w) (c :: s)
  | code {c : Char} {x w s : List Char} : HexDigits x c.toNat → SpellsChars w s →
      SpellsChars ('\\' :: 'u' :: (x ++ w)) (c :: s)
  | halves {c : Char} {x y w s : List Char} : 0x10000 ≤ c.toNat →
      HexDigits x (0xD800 + (c.toNat - 0x10000) / 0x400) →
      HexDigits y (0xDC00 + (c.toNat - 0x10000) % 0x400) → SpellsChars w s →
      SpellsChars ('\\' :: 'u' :: (x ++ '\\' :: 'u' :: (y ++ w))) (c :: s)

/-- No character has the code of a half. -/
theorem toNat_not_half (c : Char) :
    isLeading c.toNat = false ∧ isTrailing c.toNat = false ∧ c.toNat < 0x110000 := by
  have hvalid : c.toNat < 0xD800 ∨ 0xDFFF < c.toNat ∧ c.toNat < 0x110000 := c.valid
  refine ⟨?_, ?_, by omega⟩
  · unfold isLeading
    rw [Bool.and_eq_false_iff, decide_eq_false_iff_not, decide_eq_false_iff_not]
    omega
  · unfold isTrailing
    rw [Bool.and_eq_false_iff, decide_eq_false_iff_not, decide_eq_false_iff_not]
    omega

theorem escape_letter {l c : Char} (h : (l, c) ∈ letterEscapes) (rest : List Char) :
    escape (l :: rest) = .ok (c, rest) := by
  simp only [letterEscapes, List.mem_cons, Prod.mk.injEq, List.not_mem_nil, or_false] at h
  obtain ⟨rfl, rfl⟩ | ⟨rfl, rfl⟩ | ⟨rfl, rfl⟩ | ⟨rfl, rfl⟩ | ⟨rfl, rfl⟩ | ⟨rfl, rfl⟩ |
    ⟨rfl, rfl⟩ | ⟨rfl, rfl⟩ := h
  all_goals rfl

theorem escape_code {c : Char} {x : List Char} (h : HexDigits x c.toNat) (rest : List Char) :
    escape ('u' :: (x ++ rest)) = .ok (c, rest) := by
  obtain ⟨hleading, htrailing, -⟩ := toNat_not_half c
  rw [escape, if_pos rfl, codePoint, h.hexGroup]
  simp only [hleading, htrailing, Char.ofNat_toNat, Bool.false_eq_true, if_false]

theorem escape_halves {c : Char} {x y : List Char} (hc : 0x10000 ≤ c.toNat)
    (hx : HexDigits x (0xD800 + (c.toNat - 0x10000) / 0x400))
    (hy : HexDigits y (0xDC00 + (c.toNat - 0x10000) % 0x400)) (rest : List Char) :
    escape ('u' :: (x ++ '\\' :: 'u' :: (y ++ rest))) = .ok (c, rest) := by
  obtain ⟨-, -, hsmall⟩ := toNat_not_half c
  have hleading : isTrailing (0xD800 + (c.toNat - 0x10000) / 0x400) = false ∧
      isLeading (0xD800 + (c.toNat - 0x10000) / 0x400) = true := by
    unfold isTrailing isLeading
    rw [Bool.and_eq_false_iff, Bool.and_eq_true, decide_eq_false_iff_not,
      decide_eq_false_iff_not, decide_eq_true_iff, decide_eq_true_iff]
    omega
  have htrailing : isTrailing (0xDC00 + (c.toNat - 0x10000) % 0x400) = true := by
    unfold isTrailing
    rw [Bool.and_eq_true, decide_eq_true_iff, decide_eq_true_iff]
    omega
  have hjoin : joinHalves (0xD800 + (c.toNat - 0x10000) / 0x400)
      (0xDC00 + (c.toNat - 0x10000) % 0x400) = c := by
    have hcode : 0x10000 + (0xD800 + (c.toNat - 0x10000) / 0x400 - 0xD800) * 0x400 +
        (0xDC00 + (c.toNat - 0x10000) % 0x400 - 0xDC00) = c.toNat := by omega
    rw [joinHalves, hcode, Char.ofNat_toNat]
  rw [escape, if_pos rfl, codePoint, hx.hexGroup]
  simp only [hleading.1, hleading.2, Bool.false_eq_true, if_false, if_true, secondHalf,
    hy.hexGroup, htrailing, hjoin]

/-- A spelling is read up to its closing quote. -/
theorem SpellsChars.quoted {w s : List Char} (h : SpellsChars w s) (rest : List Char) :
    ∀ done, Json.quoted done (w ++ '"' :: rest) = .ok (done.reverse ++ s, rest) := by
  induction h with
  | nil =>
    intro done
    rw [List.nil_append, Json.quoted, if_pos rfl, List.append_nil]
  | @plain c w s hquote hslash hcode _ ih =>
    intro done
    have hcontrol : isControl c = false := decide_eq_false (Nat.not_lt.mpr hcode)
    rw [List.cons_append, quoted_plain hquote hslash hcontrol, ih, List.reverse_cons,
      List.append_assoc]
    rfl
  | letter hl _ ih =>
    intro done
    rw [List.cons_append, List.cons_append, quoted_backslash (escape_letter hl _), ih,
      List.reverse_cons, List.append_assoc]
    rfl
  | code hx _ ih =>
    intro done
    rw [List.cons_append, List.cons_append, List.append_assoc,
      quoted_backslash (escape_code hx _), ih, List.reverse_cons, List.append_assoc]
    rfl
  | halves hc hx hy _ ih =>
    intro done
    simp only [List.cons_append, List.append_assoc]
    rw [quoted_backslash (escape_halves hc hx hy _), ih, List.reverse_cons, List.append_assoc]
    rfl

/-- An escaped character is one of the spellings. -/
theorem spellsChars_escaped {w s : List Char} (c : Char) (h : SpellsChars w s) :
    SpellsChars (escaped c ++ w) (c :: s) := by
  unfold escaped
  split
  · exact .letter (by decide) h
  · exact .letter (by decide) h
  · exact .letter (by decide) h
  · exact .letter (by decide) h
  · exact .letter (by decide) h
  · exact .letter (by decide) h
  · exact .letter (by decide) h
  · next hq hb _ _ _ _ _ =>
    split
    · next hc =>
      have hsmall : c.toNat < 0x20 := of_decide_eq_true hc
      have hzero : HexDigit '0' 0 := ⟨by decide, .inl rfl⟩
      have hhigh : HexDigit (hexDigit (c.toNat / 16)) (c.toNat / 16) := ⟨by omega, .inl rfl⟩
      have hlow : HexDigit (hexDigit (c.toNat % 16)) (c.toNat % 16) := ⟨by omega, .inl rfl⟩
      have hdigits := HexDigits.group hzero hzero hhigh hlow
      have hcode : ((0 * 16 + 0) * 16 + c.toNat / 16) * 16 + c.toNat % 16 = c.toNat := by omega
      rw [hcode] at hdigits
      exact .code hdigits h
    · next hc =>
      have hlarge : ¬ c.toNat < 0x20 := fun h => hc (decide_eq_true h)
      exact .plain hq hb (Nat.not_lt.mp hlarge) h

/-! ### Strings -/

/-- The text between quotes spells the string. -/
def StringToken (w : List Char) (s : String) : Prop :=
  ∃ x, w = '"' :: (x ++ ['"']) ∧ SpellsChars x s.toList

/-- What is written for a string spells it. -/
theorem stringToken_quote (s : String) : StringToken (quote s) s := by
  refine ⟨s.toList.flatMap escaped, rfl, ?_⟩
  induction s.toList with
  | nil => exact .nil
  | cons c cs ih => exact spellsChars_escaped c ih

namespace StringToken

variable {w : List Char} {s : String}

/-- Every spelling of a name is read as the name. -/
theorem keyName (h : StringToken w s) : Json.keyName w = some s := by
  obtain ⟨x, rfl, hx⟩ := h
  have hread : Json.quoted [] (x ++ ['"']) = .ok (s.toList, []) := hx.quoted [] []
  rw [Json.keyName, keyText, if_pos rfl, hread]
  simp only [String.ofList_toList]

/-- Every spelling of a string is read as the string. -/
theorem head (h : StringToken w s) : Json.head w = .ok (.scalar (.text s) []) :=
  head_of_keyName h.keyName

/-- Every spelling of a name may be a key. -/
theorem isKey (h : StringToken w s) : IsKey w := by
  obtain ⟨x, rfl, hx⟩ := h
  exact ⟨x ++ ['"'], rfl, passQuoted_of_quoted (hx.quoted [] [])⟩

theorem isText (h : StringToken w s) : (Tree.scalar w).IsText s := ⟨w, rfl, h.head⟩

end StringToken

/-! ### Counts, truth values and null -/

/-- The digits of a count are read as the count. -/
theorem head_count (n : UInt32) :
    head (Nat.toDigits 10 n.toNat) = .ok (.scalar (.number (.natural n.toNat)) []) := by
  have hexact : (Scalar.number (.natural n.toNat)).Exact := by
    have hlt : n.toNat < 2 ^ 32 := n.toNat_lt
    show n.toNat ≤ 2 ^ 64 - 1
    omega
  have hends : EndsNumber [] := nofun
  have hread := head_written hexact hends
  rw [List.append_nil] at hread
  exact hread

/-- The word of a truth value. -/
def flagWord : Bool → List Char
  | true => ['t', 'r', 'u', 'e']
  | false => ['f', 'a', 'l', 's', 'e']

theorem head_flag (b : Bool) : head (flagWord b) = .ok (.scalar (.flag b) []) := by
  cases b with
  | true => rfl
  | false => rfl

end Json
end ModelStubs
