/-
# Numbers as they are spelled

A number is a minus sign or none, a whole part without zeros in front, a fraction or none,
and an exponent or none; `Json.NumberToken` is this grammar. Every number of the grammar is
scanned whole, however long it is (`Json.NumberToken.exists_scan`).

A count is a plain number: only digits, so that there is no sign and neither a fraction nor
an exponent. All other numbers become floating point numbers or negative ones. The digits are
added up in a word of 64 bits, and those that do not fit make a floating point number as
well. So a count is read exactly if its digits spell a number of 32 bits, and it is that
number (`Json.NumberToken.means_count_iff`).

Key definitions: `Json.NumberToken`, `Json.AllDigits`, `Json.Literal.Plain`.
Key theorems: `Json.NumberToken.exists_scan`, `Json.absorb_eq_nil_iff`,
`Json.Literal.number_natural_iff`, `Json.NumberToken.head_natural_iff`,
`Json.NumberToken.means_count_iff`.
-/
import ModelStubs.Proofs.Json.Meanings
import ModelStubs.Proofs.Json.Tokens

namespace ModelStubs
namespace Json

/-! ### The grammar -/

/-- Nothing but digits. -/
def AllDigits (w : List Char) : Prop := ∀ c ∈ w, c.isDigit = true

instance (w : List Char) : Decidable (AllDigits w) :=
  decidable_of_iff (w.all Char.isDigit = true) List.all_eq_true

/-- The digits before the point: a zero alone, or digits that start with another. -/
inductive IsWhole : List Char → Prop
  | zero : IsWhole ['0']
  | digits {c : Char} {ds : List Char} : c ≠ '0' → AllDigits (c :: ds) → IsWhole (c :: ds)

/-- A point with digits behind it, or nothing. -/
inductive IsFraction : List Char → Prop
  | absent : IsFraction []
  | digits {ds : List Char} : ds ≠ [] → AllDigits ds → IsFraction ('.' :: ds)

/-- A sign of an exponent, or nothing. -/
inductive IsSign : List Char → Prop
  | absent : IsSign []
  | plus : IsSign ['+']
  | minus : IsSign ['-']

/-- An `e` of either case with digits behind it, which may have a sign, or nothing. -/
inductive IsExponent : List Char → Prop
  | absent : IsExponent []
  | digits {e : Char} {sign ds : List Char} : e = 'e' ∨ e = 'E' → IsSign sign → ds ≠ [] →
      AllDigits ds → IsExponent (e :: (sign ++ ds))

/-- A number as it may be spelled. -/
inductive NumberToken : List Char → Prop
  | positive {w f e : List Char} : IsWhole w → IsFraction f → IsExponent e →
      NumberToken (w ++ (f ++ e))
  | negative {w f e : List Char} : IsWhole w → IsFraction f → IsExponent e →
      NumberToken ('-' :: (w ++ (f ++ e)))

/-! ### Every number is scanned -/

theorem IsWhole.allDigits {w : List Char} (h : IsWhole w) : AllDigits w := by
  cases h with
  | zero => exact List.forall_mem_singleton.mpr rfl
  | digits _ hd => exact hd

theorem IsWhole.exists_cons {w : List Char} (h : IsWhole w) :
    ∃ c ds, w = c :: ds ∧ c.isDigit = true := by
  cases h with
  | zero => exact ⟨'0', [], rfl, rfl⟩
  | digits _ hd => exact ⟨_, _, rfl, hd _ List.mem_cons_self⟩

theorem noDigit_nil : NoDigit [] := nofun

theorem IsExponent.noDigit {e : List Char} (h : IsExponent e) :
    NoDigit e ∧ e.head? ≠ some '.' := by
  cases h with
  | absent => exact ⟨noDigit_nil, nofun⟩
  | digits he _ _ _ =>
    rcases he with rfl | rfl
    · exact ⟨fun c hc => by cases hc; rfl, by simp⟩
    · exact ⟨fun c hc => by cases hc; rfl, by simp⟩

theorem IsFraction.noDigit {f e : List Char} (h : IsFraction f) (he : IsExponent e) :
    NoDigit (f ++ e) := by
  cases h with
  | absent => exact he.noDigit.1
  | digits _ _ => exact fun c hc => by cases hc; rfl

theorem IsWhole.scan {w r : List Char} (h : IsWhole w) (hr : NoDigit r) (ends : Cause) :
    scanWhole ends (w ++ r) = .ok (w, r) := by
  cases h with
  | zero =>
    have htake := (takeWhile_of_noDigit (List.forall_mem_nil _) hr).1
    rw [List.nil_append] at htake
    rw [List.cons_append, List.nil_append, scanWhole, if_pos rfl, htake]
    rfl
  | digits hc hd =>
    obtain ⟨htake, hdrop⟩ := takeWhile_of_noDigit (List.forall_mem_cons.mp hd).2 hr
    rw [List.cons_append, scanWhole, if_neg hc, if_pos (hd _ List.mem_cons_self), htake, hdrop]

/-- A fraction is its digits behind the point. -/
theorem IsFraction.scan {f r : List Char} (h : IsFraction f) (hr : NoDigit r)
    (hpoint : r.head? ≠ some '.') (ends : Cause) :
    scanFraction ends (f ++ r) = .ok (f.tail, r) := by
  cases h with
  | absent =>
    cases r with
    | nil => rfl
    | cons c r =>
      have hc : c ≠ '.' := fun e => hpoint (by rw [e]; rfl)
      rw [List.nil_append, scanFraction, if_neg hc]
      rfl
  | digits hne hd =>
    obtain ⟨htake, hdrop⟩ := takeWhile_of_noDigit hd hr
    rw [List.cons_append, scanFraction, if_pos rfl, htake, hdrop,
      if_neg (mt List.isEmpty_iff.mp hne)]
    rfl

theorem IsSign.scan {sign ds : List Char} (h : IsSign sign) (hd : AllDigits ds) :
    (scanSign (sign ++ ds)).2 = ds := by
  cases h with
  | plus => rfl
  | minus => rfl
  | absent =>
    cases ds with
    | nil => rfl
    | cons c ds =>
      have hc := hd c List.mem_cons_self
      rw [List.nil_append]
      unfold scanSign
      split
      · next he => cases he; cases hc
      · next he => cases he; cases hc
      · rfl

/-- An exponent is found exactly if something is written for it. -/
theorem IsExponent.exists_scan {e : List Char} (h : IsExponent e) :
    ∃ x, (∀ ends, scanExponent ends e = .ok (x, [])) ∧ (x = none ↔ e = []) := by
  cases h with
  | absent => exact ⟨none, fun _ => rfl, iff_of_true rfl rfl⟩
  | @digits c sign ds hc hsign hne hd =>
    obtain ⟨htake, hdrop⟩ := takeWhile_of_noDigit hd noDigit_nil
    rw [List.append_nil] at htake hdrop
    refine ⟨some ((scanSign (sign ++ ds)).1, ds), fun ends => ?_, iff_of_false nofun
      (List.cons_ne_nil _ _)⟩
    rw [scanExponent, if_pos hc]
    simp only [hsign.scan hd, htake, hdrop, if_neg (mt List.isEmpty_iff.mp hne)]

/-- The number has neither a sign nor a fraction nor an exponent. -/
def Literal.Plain (l : Literal) : Prop :=
  l.negative = false ∧ l.fraction = [] ∧ l.exponent = none

/-- Behind its sign a number is scanned whole. It is plain if there is nothing but digits. -/
theorem exists_scanUnsigned {w f e : List Char} (hw : IsWhole w) (hf : IsFraction f)
    (he : IsExponent e) (negative : Bool) : ∃ l,
    (∀ ends, scanUnsigned ends negative (w ++ (f ++ e)) = .ok (l, [])) ∧
      l.negative = negative ∧ l.whole = w ∧ (l.fraction = [] ↔ f = []) ∧
      (l.exponent = none ↔ e = []) := by
  obtain ⟨x, hx, hnone⟩ := he.exists_scan
  refine ⟨⟨negative, w, f.tail, x⟩, fun ends => ?_, rfl, rfl, ?_, hnone⟩
  · simp only [scanUnsigned, hw.scan (hf.noDigit he) ends,
      hf.scan he.noDigit.1 he.noDigit.2 ends, hx ends]
  · cases hf with
    | absent => exact iff_of_true rfl rfl
    | digits hne _ => exact iff_of_false hne nofun

/-- Digits alone have no fraction and no exponent. -/
theorem allDigits_append_iff {w f e : List Char} (hw : IsWhole w) (hf : IsFraction f)
    (he : IsExponent e) : AllDigits (w ++ (f ++ e)) ↔ f = [] ∧ e = [] := by
  constructor
  · intro h
    obtain ⟨-, h⟩ := List.forall_mem_append.mp h
    obtain ⟨hdigits, hdigits'⟩ := List.forall_mem_append.mp h
    constructor
    · cases hf with
      | absent => rfl
      | digits _ _ => cases hdigits '.' List.mem_cons_self
    · cases he with
      | absent => rfl
      | @digits c _ _ hc _ _ _ =>
        have hdigit := hdigits' c List.mem_cons_self
        rcases hc with rfl | rfl <;> cases hdigit
  · rintro ⟨rfl, rfl⟩
    rw [List.append_nil, List.append_nil]
    exact hw.allDigits

namespace NumberToken

variable {w : List Char}

/-- **Every number is scanned whole.** It is plain exactly if it is nothing but digits, and
then these are all of it. -/
theorem exists_scan (h : NumberToken w) : ∃ l, (∀ ends, Literal.scan ends w = .ok (l, [])) ∧
    (l.Plain ↔ AllDigits w) ∧ (l.Plain → l.whole = w) := by
  cases h with
  | @positive w f e hw hf he =>
    obtain ⟨l, hscan, hsign, hwhole, hfraction, hexponent⟩ := exists_scanUnsigned hw hf he false
    obtain ⟨c, ds, rfl, hc⟩ := hw.exists_cons
    have hminus : ∀ t, c :: ds ++ (f ++ e) ≠ '-' :: t := by
      intro t ht
      cases ht
      cases hc
    refine ⟨l, fun ends => (scan_of_ne hminus).trans (hscan ends), ?_, fun hplain => ?_⟩
    · rw [allDigits_append_iff hw hf he, Literal.Plain, hsign, hfraction, hexponent]
      exact and_iff_right rfl
    · obtain ⟨-, hf', he'⟩ := hplain
      rw [hfraction.mp hf', hexponent.mp he', hwhole, List.append_nil, List.append_nil]
  | @negative w f e hw hf he =>
    obtain ⟨l, hscan, hsign, -⟩ := exists_scanUnsigned hw hf he true
    have hplain : ¬ l.Plain := fun h => by cases hsign.symm.trans h.1
    refine ⟨l, fun ends => (scan_minus ends _).trans (hscan ends), ?_, fun h => absurd h hplain⟩
    refine iff_of_false hplain fun hdigits => ?_
    cases hdigits '-' List.mem_cons_self

/-- A number starts with a minus sign or a digit. -/
theorem exists_cons (h : NumberToken w) :
    ∃ c ds, w = c :: ds ∧ (c = '-' ∨ c.isDigit = true) := by
  cases h with
  | positive hw _ _ =>
    obtain ⟨c, ds, rfl, hc⟩ := hw.exists_cons
    exact ⟨c, _, rfl, .inr hc⟩
  | negative _ _ _ => exact ⟨'-', _, rfl, .inl rfl⟩

end NumberToken

/-- A character that starts a number is no space and starts nothing else. -/
theorem isSpace_of_startsNumber {c : Char} (h : c = '-' ∨ c.isDigit = true) :
    isSpace c = false := by
  rcases h with rfl | h
  · rfl
  · exact isSpace_of_isDigit h

theorem ne_of_startsNumber {c d : Char} (h : c = '-' ∨ c.isDigit = true)
    (hd : d ≠ '-' ∧ d.isDigit = false) : c ≠ d := by
  rcases h with rfl | h
  · exact hd.1.symm
  · exact ne_of_isDigit h hd.2

namespace NumberToken

variable {w : List Char}

/-- A number is a token. -/
theorem isToken (h : NumberToken w) : IsToken w := by
  obtain ⟨l, hscan, -⟩ := h.exists_scan
  obtain ⟨c, ds, rfl, hc⟩ := h.exists_cons
  have hne : ∀ d : Char, d ≠ '-' ∧ d.isDigit = false → c ≠ d := fun _ => ne_of_startsNumber hc
  refine ⟨⟨c, ds, rfl, isSpace_of_startsNumber hc, hne ']' (by decide),
    hne '\x7d' (by decide)⟩, ?_⟩
  rw [passHead, skipSpace_cons (isSpace_of_startsNumber hc)]
  simp only [if_neg (hne 'n' (by decide)), if_neg (hne 't' (by decide)),
    if_neg (hne 'f' (by decide)), if_pos hc, passNumber, hscan .badNumber, passedScalar]

/-- What is read at a number is its value. -/
theorem head_eq (h : NumberToken w) : head w = numberHead w := by
  obtain ⟨c, ds, rfl, hc⟩ := h.exists_cons
  have hne : ∀ d : Char, d ≠ '-' ∧ d.isDigit = false → c ≠ d := fun _ => ne_of_startsNumber hc
  rw [head, skipSpace_cons (isSpace_of_startsNumber hc), headOf,
    if_neg (hne 'n' (by decide)), if_neg (hne 't' (by decide)), if_neg (hne 'f' (by decide)),
    if_pos hc]

/-- A number is not null. -/
theorem not_isNull (h : NumberToken w) : ¬ (Tree.scalar w).IsNull := by
  rintro ⟨w', he, hnull⟩
  cases he
  rw [h.head_eq, numberHead] at hnull
  split at hnull <;> cases hnull

end NumberToken

/-! ### The value of a number -/

/-- No digit is left exactly if the number stays within the limit. -/
theorem absorb_eq_nil_iff {limit : Nat} {ds : List Char} {n m : Nat} (hn : n ≤ limit) :
    absorb limit n ds = (m, []) ↔ Nat.ofDigitChars 10 ds n = m ∧ m ≤ limit := by
  constructor
  · intro h
    induction ds generalizing n with
    | nil =>
      cases h
      exact ⟨Nat.ofDigitChars_nil, hn⟩
    | cons c ds ih =>
      rw [absorb] at h
      split at h
      · next hle =>
        rw [Nat.ofDigitChars_cons, Nat.mul_comm]
        exact ih hle h
      · cases h
  · rintro ⟨rfl, hm⟩
    exact absorb_eq hm

theorem wholeNumber_eq_natural_iff {negative : Bool} {word n : Nat} :
    wholeNumber negative word = .natural n ↔ negative = false ∧ word = n := by
  unfold wholeNumber signed
  cases negative with
  | false => simp
  | true =>
    simp only [if_true, Bool.true_eq_false, false_and, iff_false]
    split <;> nofun

/-- A number from zero is plain, and its digits fit into a word. -/
theorem Literal.number_natural_iff {l : Literal} {n : Nat} :
    l.number = .ok (.natural n) ↔
      l.Plain ∧ Nat.ofDigitChars 10 l.whole 0 = n ∧ n ≤ largestWord := by
  rw [← absorb_eq_nil_iff (Nat.zero_le _)]
  unfold Literal.number Literal.Plain
  obtain ⟨word, beyond⟩ := absorb largestWord 0 l.whole
  simp only [Prod.mk.injEq]
  split
  · next hwhole =>
    rw [Bool.and_eq_true, Bool.and_eq_true, List.isEmpty_iff, List.isEmpty_iff,
      Option.isNone_iff_eq_none] at hwhole
    obtain ⟨⟨rfl, hfraction⟩, hexponent⟩ := hwhole
    rw [Except.ok.injEq, wholeNumber_eq_natural_iff]
    simp only [hfraction, hexponent, and_true]
  · next hwhole =>
    -- every other number is a floating point number or too large
    refine iff_of_false (fun h => ?_) ?_
    · simp only [signed] at h
      repeat' split at h
      all_goals cases h
    · rintro ⟨⟨-, hfraction, hexponent⟩, -, rfl⟩
      rw [hfraction, hexponent] at hwhole
      exact hwhole rfl

namespace NumberToken

variable {w : List Char}

/-- Digits that fit into a word are read as a number from zero, and nothing else is. -/
theorem head_natural_iff (h : NumberToken w) {n : Nat} :
    head w = .ok (.scalar (.number (.natural n)) []) ↔
      AllDigits w ∧ Nat.ofDigitChars 10 w 0 = n ∧ n ≤ largestWord := by
  obtain ⟨l, hscan, hplain, hwhole⟩ := h.exists_scan
  have hread : head w = .ok (.scalar (.number (.natural n)) []) ↔
      l.number = .ok (.natural n) := by
    rw [h.head_eq, numberHead, readNumber, hscan .valueEnds]
    simp only
    cases l.number with
    | error e => simp
    | ok x => simp
  rw [hread, Literal.number_natural_iff, hplain]
  refine and_congr_right fun hdigits => ?_
  rw [hwhole (hplain.mpr hdigits)]

/-- **A count is its digits.** No other number means a count, and no count means another
number than the one that its digits spell. -/
theorem means_count_iff (h : NumberToken w) {a : UInt32} :
    Meaning.scalar .count (.scalar w) a ↔ AllDigits w ∧ Nat.ofDigitChars 10 w 0 = a.toNat := by
  have hsmall : a.toNat < UInt32.size := a.toNat_lt
  constructor
  · rintro ⟨_, v, he, hv, ha⟩
    cases he
    replace ha : ScalarShape.asCount v = .ok a := ha
    unfold ScalarShape.asCount at ha
    split at ha
    · next n =>
      obtain ⟨hdigits, hvalue, -⟩ := h.head_natural_iff.mp hv
      split at ha
      · next hn =>
        cases ha
        exact ⟨hdigits, hvalue.trans (UInt32.toNat_ofNat_of_lt hn).symm⟩
      · cases ha
    · cases ha
    · cases ha
  · rintro ⟨hdigits, hvalue⟩
    have hword : a.toNat ≤ largestWord := Nat.le_trans (Nat.le_of_lt hsmall) (by decide)
    exact ⟨w, _, rfl, h.head_natural_iff.mpr ⟨hdigits, hvalue, hword⟩,
      decode_toScalar .count a⟩

end NumberToken

end Json
end ModelStubs
