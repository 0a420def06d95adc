/-
# Scalars that were written are read back

A string is read back because every character is escaped in a way that the reader
undoes, and a whole number of 64 bits because its digits are taken into one word that
is never too small for them. What follows a number must not go on with it
(`Json.EndsNumber`); a string ends with its quote.

Key definitions: `Json.EndsNumber`, `Json.Scalar.Exact`.
Key theorems: `Json.quoted_quote`, `Json.readNumber_toDigits`, `Json.head_written`.
-/
import ModelStubs.Json.Written

namespace ModelStubs
namespace Json

/-! ### Quoted strings -/

theorem hexValue?_hexDigit {n : Nat} (h : n < 16) : hexValue? (hexDigit n) = some n := by
  have hall : ∀ m : Fin 16, hexValue? (hexDigit m.val) = some m.val := by decide
  exact hall ⟨n, h⟩

/-- Two digits behind two zeros are a number below 256. -/
theorem hexGroup_pair {n : Nat} (h : n < 256) (rest : List Char) :
    hexGroup ('0' :: '0' :: hexDigit (n / 16) :: hexDigit (n % 16) :: rest) = .ok (n, rest) := by
  have hzero : hexValue? '0' = some 0 := rfl
  have hhigh := hexValue?_hexDigit (n := n / 16) (by omega)
  have hlow := hexValue?_hexDigit (n := n % 16) (by omega)
  have hsum : ((0 * 16 + 0) * 16 + n / 16) * 16 + n % 16 = n := by omega
  simp only [hexGroup, hzero, hhigh, hlow, hsum]

/-- A control character is read back from its digits. -/
theorem codePoint_control {c : Char} (h : isControl c = true) (rest : List Char) :
    codePoint ('0' :: '0' :: hexDigit (c.toNat / 16) :: hexDigit (c.toNat % 16) :: rest) =
      .ok (c, rest) := by
  have hc : c.toNat < 32 := by simpa [isControl] using h
  have htrailing : isTrailing c.toNat = false := by
    unfold isTrailing
    rw [Bool.and_eq_false_iff]
    exact .inl (decide_eq_false (by omega))
  have hleading : isLeading c.toNat = false := by
    unfold isLeading
    rw [Bool.and_eq_false_iff]
    exact .inl (decide_eq_false (by omega))
  unfold codePoint
  rw [hexGroup_pair (by omega)]
  simp only [htrailing, hleading, Char.ofNat_toNat, Bool.false_eq_true, if_false]

theorem quoted_backslash {done r t : List Char} {d : Char} (h : escape r = .ok (d, t)) :
    quoted done ('\\' :: r) = quoted (d :: done) t := by
  rw [quoted, if_neg (by decide), if_pos rfl]
  split
  · next he =>
    rw [h] at he
    cases he
  · next he =>
    rw [h] at he
    cases he
    rfl

theorem quoted_plain {done r : List Char} {c : Char} (hq : c ≠ '"') (hb : c ≠ '\\')
    (hc : isControl c = false) : quoted done (c :: r) = quoted (c :: done) r := by
  rw [quoted, if_neg hq, if_neg hb, if_neg (by rw [hc]; decide)]

/-- The reader of a quoted text undoes the escape of a character. -/
theorem quoted_escaped (done : List Char) (c : Char) (rest : List Char) :
    quoted done (escaped c ++ rest) = quoted (c :: done) rest := by
  unfold escaped
  split
  · exact quoted_backslash rfl
  · exact quoted_backslash rfl
  · exact quoted_backslash rfl
  · exact quoted_backslash rfl
  · exact quoted_backslash rfl
  · exact quoted_backslash rfl
  · exact quoted_backslash rfl
  · next hq hb _ _ _ _ _ =>
    split
    · next hc =>
      refine quoted_backslash ?_
      show escape ('u' :: _) = _
      rw [escape, if_pos rfl]
      exact codePoint_control hc rest
    · next hc => exact quoted_plain hq hb (Bool.eq_false_iff.mpr hc)

/-- Escaped characters up to a quote are read back. -/
theorem quoted_flatMap (rest : List Char) : ∀ cs done : List Char,
    quoted done (cs.flatMap escaped ++ '"' :: rest) = .ok (done.reverse ++ cs, rest)
  | [], done => by
    rw [List.flatMap_nil, List.nil_append, quoted, if_pos rfl, List.append_nil]
  | c :: cs, done => by
    rw [List.flatMap_cons, List.append_assoc, quoted_escaped, quoted_flatMap rest cs,
      List.reverse_cons, List.append_assoc]
    rfl

/-- What stands between the quotes of a string is read back. -/
theorem quoted_quote (s : String) (rest : List Char) :
    quoted [] (s.toList.flatMap escaped ++ '"' :: rest) = .ok (s.toList, rest) :=
  quoted_flatMap rest s.toList []

/-- A key is read back. -/
theorem keyText_quote (k : String) (rest : List Char) :
    keyText (quote k ++ rest) = .ok (k, rest) := by
  have hq : quote k ++ rest = '"' :: (k.toList.flatMap escaped ++ '"' :: rest) := by
    simp [quote]
  rw [hq, keyText, if_pos rfl, quoted_quote]
  simp only [String.ofList_toList]

/-! ### Whole numbers -/

/-- The text does not go on with a number that stands before it. -/
def EndsNumber (s : List Char) : Prop :=
  ∀ c ∈ s.head?, c.isDigit = false ∧ c ≠ '.' ∧ c ≠ 'e' ∧ c ≠ 'E'

theorem takeWhile_append_digits {ds rest : List Char} (hd : ∀ c ∈ ds, c.isDigit = true)
    (hr : EndsNumber rest) :
    (ds ++ rest).takeWhile Char.isDigit = ds ∧ (ds ++ rest).dropWhile Char.isDigit = rest := by
  have hrest : rest.takeWhile Char.isDigit = [] ∧ rest.dropWhile Char.isDigit = rest := by
    cases rest with
    | nil => exact ⟨rfl, rfl⟩
    | cons c cs =>
      have hc := (hr c rfl).1
      rw [List.takeWhile_cons, List.dropWhile_cons, hc]
      exact ⟨rfl, rfl⟩
  rw [List.takeWhile_append_of_pos hd, List.dropWhile_append_of_pos hd, hrest.1, hrest.2,
    List.append_nil]
  exact ⟨rfl, rfl⟩

theorem le_ofDigitChars : ∀ (ds : List Char) (n : Nat), n ≤ Nat.ofDigitChars 10 ds n
  | [], n => Nat.le_of_eq Nat.ofDigitChars_nil.symm
  | c :: ds, n => by
    rw [Nat.ofDigitChars_cons]
    have h := le_ofDigitChars ds (10 * n + (c.toNat - '0'.toNat))
    omega

/-- Digits are all taken if their number stays within the limit. -/
theorem absorb_eq {limit : Nat} : ∀ {ds : List Char} {n : Nat},
    Nat.ofDigitChars 10 ds n ≤ limit → absorb limit n ds = (Nat.ofDigitChars 10 ds n, [])
  | [], n, _ => by rw [absorb, Nat.ofDigitChars_nil]
  | c :: ds, n, h => by
    rw [Nat.ofDigitChars_cons, Nat.mul_comm] at h
    have hle : n * 10 + digitValue c ≤ limit := Nat.le_trans (le_ofDigitChars ds _) h
    rw [absorb, if_pos hle, Nat.ofDigitChars_cons, Nat.mul_comm 10 n]
    exact absorb_eq h

/-- Only zero is written with a zero in front. -/
theorem head?_toDigits {n : Nat} (hn : n ≠ 0) :
    ∃ c ds, Nat.toDigits 10 n = c :: ds ∧ c ≠ '0' := by
  induction n using Nat.strongRecOn with
  | ind n ih =>
    rw [Nat.toDigits_eq_if (by decide)]
    split
    · next hlt =>
      have hall : ∀ m : Fin 10, m.val ≠ 0 → Nat.digitChar m.val ≠ '0' := by decide
      exact ⟨_, [], rfl, hall ⟨n, hlt⟩ hn⟩
    · next hge =>
      obtain ⟨c, ds, h, hc⟩ := ih (n / 10) (by omega) (by omega)
      exact ⟨c, ds ++ [Nat.digitChar (n % 10)], by rw [h]; rfl, hc⟩

/-- The digits of a number are scanned whole. -/
theorem scanWhole_toDigits (ends : Cause) (n : Nat) {rest : List Char} (hr : EndsNumber rest) :
    scanWhole ends (Nat.toDigits 10 n ++ rest) = .ok (Nat.toDigits 10 n, rest) := by
  have hdigits : ∀ c ∈ Nat.toDigits 10 n, c.isDigit = true :=
    fun c hc => Nat.isDigit_of_mem_toDigits (by decide) (by decide) hc
  by_cases hn : n = 0
  · subst hn
    have hnone := (takeWhile_append_digits (List.forall_mem_nil _) hr).1
    rw [Nat.toDigits_zero]
    show scanWhole ends ('0' :: rest) = _
    rw [scanWhole, if_pos rfl]
    rw [List.nil_append] at hnone
    rw [hnone]
    rfl
  · obtain ⟨c, ds, h, hc⟩ := head?_toDigits hn
    rw [h] at hdigits ⊢
    obtain ⟨htake, hdrop⟩ := takeWhile_append_digits
      (fun d hd => hdigits d (List.mem_cons_of_mem _ hd)) hr
    rw [List.cons_append, scanWhole, if_neg hc, if_pos (hdigits c List.mem_cons_self), htake, hdrop]

theorem scanFraction_ends (ends : Cause) {rest : List Char} (hr : EndsNumber rest) :
    scanFraction ends rest = .ok ([], rest) := by
  cases rest with
  | nil => rfl
  | cons c cs => rw [scanFraction, if_neg (hr c rfl).2.1]

theorem scanExponent_ends (ends : Cause) {rest : List Char} (hr : EndsNumber rest) :
    scanExponent ends rest = .ok (none, rest) := by
  cases rest with
  | nil => rfl
  | cons c cs =>
    obtain ⟨-, -, h1, h2⟩ := hr c rfl
    have hnot : ¬ (c = 'e' ∨ c = 'E') := fun h => h.elim h1 h2
    rw [scanExponent, if_neg hnot]

/-- The digits of a number start with a digit. -/
theorem exists_cons_toDigits (n : Nat) :
    ∃ c ds, Nat.toDigits 10 n = c :: ds ∧ c.isDigit = true := by
  obtain ⟨c, ds, h⟩ := List.exists_cons_of_ne_nil (Nat.toDigits_ne_nil (n := n) (b := 10))
  have hc : c ∈ Nat.toDigits 10 n := by rw [h]; exact List.mem_cons_self
  exact ⟨c, ds, h, Nat.isDigit_of_mem_toDigits (by decide) (by decide) hc⟩

theorem ne_of_isDigit {c d : Char} (hc : c.isDigit = true) (hd : d.isDigit = false) : c ≠ d := by
  intro e
  rw [e, hd] at hc
  cases hc

theorem isSpace_of_isDigit {c : Char} (h : c.isDigit = true) : isSpace c = false := by
  have hne : ∀ d : Char, d.isDigit = false → c ≠ d := fun _ => ne_of_isDigit h
  unfold isSpace
  simp only [Bool.or_eq_false_iff, beq_eq_false_iff_ne]
  exact ⟨⟨⟨hne ' ' rfl, hne '\n' rfl⟩, hne '\t' rfl⟩, hne '\x0d' rfl⟩

/-- The digits of a number are a literal without sign, fraction and exponent. -/
theorem scan_toDigits (ends : Cause) (n : Nat) {rest : List Char} (hr : EndsNumber rest) :
    Literal.scan ends (Nat.toDigits 10 n ++ rest) =
      .ok (⟨false, Nat.toDigits 10 n, [], none⟩, rest) := by
  obtain ⟨c, ds, h, hc⟩ := exists_cons_toDigits n
  unfold Literal.scan
  split
  next negative s hs =>
  obtain ⟨rfl, rfl⟩ : negative = false ∧ s = Nat.toDigits 10 n ++ rest := by
    rw [h, List.cons_append] at hs ⊢
    split at hs
    · next e =>
      cases e
      exact absurd rfl (ne_of_isDigit hc (d := '-') rfl)
    · cases hs
      exact ⟨rfl, rfl⟩
  simp only [scanWhole_toDigits ends n hr, scanFraction_ends ends hr, scanExponent_ends ends hr]

/-- A whole number of 64 bits is read back. -/
theorem readNumber_toDigits {n : Nat} (hn : n ≤ largestWord) {rest : List Char}
    (hr : EndsNumber rest) :
    readNumber (Nat.toDigits 10 n ++ rest) = .ok (.natural n, rest) := by
  have habsorb : absorb largestWord 0 (Nat.toDigits 10 n) = (n, []) := by
    have hdigits := Nat.ofDigitChars_ten_toDigits (n := n)
    rw [absorb_eq (by rw [hdigits]; exact hn), hdigits]
  have hnumber : Literal.number ⟨false, Nat.toDigits 10 n, [], none⟩ = .ok (.natural n) := by
    unfold Literal.number
    rw [habsorb]
    rfl
  unfold readNumber
  rw [scan_toDigits .valueEnds n hr]
  simp only [hnumber]

/-! ### Scalars -/

/-- A scalar that no rounding changes when it is read. -/
def Scalar.Exact : Scalar → Prop
  | .number (.natural n) => n ≤ largestWord
  | .number _ => False
  | _ => True

theorem skipSpace_cons {c : Char} (h : isSpace c = false) (s : List Char) :
    skipSpace (c :: s) = c :: s := by
  unfold skipSpace
  rw [List.dropWhile_cons, h]
  rfl

/-- A scalar that was written is the head of the text. -/
theorem head_written {v : Scalar} (hv : v.Exact) {rest : List Char} (hr : EndsNumber rest) :
    head (v.written ++ rest) = .ok (.scalar v rest) := by
  cases v with
  | null => rfl
  | flag b => cases b <;> rfl
  | text s =>
    have hq : quote s ++ rest = '"' :: (s.toList.flatMap escaped ++ '"' :: rest) := by
      simp [quote]
    show headOf (skipSpace (quote s ++ rest)) = _
    rw [hq, skipSpace_cons rfl]
    show textHead _ = _
    rw [textHead, quoted_quote]
    simp only [String.ofList_toList]
  | number n =>
    cases n with
    | natural n =>
      obtain ⟨c, ds, h, hc⟩ := exists_cons_toDigits n
      have hne : ∀ d : Char, d.isDigit = false → c ≠ d := fun _ => ne_of_isDigit hc
      show headOf (skipSpace (Nat.toDigits 10 n ++ rest)) = _
      have hnumber := readNumber_toDigits hv hr
      rw [h, List.cons_append] at hnumber ⊢
      rw [skipSpace_cons (isSpace_of_isDigit hc), headOf, if_neg (hne 'n' rfl),
        if_neg (hne 't' rfl), if_neg (hne 'f' rfl), if_pos (.inr hc), numberHead, hnumber]
    | negative n => exact hv.elim
    | real x => exact hv.elim

end Json
end ModelStubs
