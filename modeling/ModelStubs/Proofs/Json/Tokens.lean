/-
# What is taken off the front of a text

Each scanner takes a part off the front of a text, and takes the same part whatever
follows it. For a number the text that follows must not go on with it
(`Json.EndsNumber`); quotes, words and groups of digits end by themselves. Scalars can
so be moved from one text into another: `Json.head_scalar_local` for those that are
read and `Json.passHead_scalar_local` for those that are passed over.

Key theorems: `Json.quoted_local`, `Json.passQuoted_local`, `Json.scan_local`,
`Json.head_scalar_local`, `Json.passHead_scalar_local`.
-/
import Mathlib.Data.List.TakeWhile
import ModelStubs.Proofs.Json.Passing

namespace ModelStubs
namespace Json

/-! ### Quoted strings -/

theorem hexGroup_local {s u : List Char} {n : Nat} (h : hexGroup s = .ok (n, u)) :
    ∃ w, s = w ++ u ∧ ∀ r, hexGroup (w ++ r) = .ok (n, r) := by
  unfold hexGroup at h
  split at h
  · next a b c d t =>
    split at h
    · next ha hb hc hd =>
      cases h
      refine ⟨[a, b, c, d], rfl, fun r => ?_⟩
      simp only [hexGroup, List.cons_append, List.nil_append, ha, hb, hc, hd]
    · cases h
  · cases h

theorem secondHalf_local {n : Nat} {s u : List Char} {d : Char}
    (h : secondHalf n s = .ok (d, u)) :
    ∃ w, s = w ++ u ∧ ∀ r, secondHalf n (w ++ r) = .ok (d, r) := by
  obtain ⟨t, m, rfl, hm⟩ := secondHalf_eq_ok h
  obtain ⟨w, rfl, hw⟩ := hexGroup_local hm
  simp only [secondHalf, if_true, hw] at h
  by_cases ht : isTrailing m = true
  · rw [if_pos ht, Except.ok.injEq, Prod.mk.injEq] at h
    refine ⟨'\\' :: 'u' :: w, rfl, fun r => ?_⟩
    simp only [secondHalf, List.cons_append, if_true, hw, if_pos ht, h.1]
  · rw [if_neg ht] at h
    cases h

theorem codePoint_local {s u : List Char} {d : Char} (h : codePoint s = .ok (d, u)) :
    ∃ w, s = w ++ u ∧ ∀ r, codePoint (w ++ r) = .ok (d, r) := by
  unfold codePoint at h
  split at h
  · cases h
  · next n t hn =>
    obtain ⟨w, rfl, hw⟩ := hexGroup_local hn
    split at h
    · cases h
    · next htrailing =>
      split at h
      · next hleading =>
        obtain ⟨v, rfl, hv⟩ := secondHalf_local h
        refine ⟨w ++ v, (List.append_assoc w v u).symm, fun r => ?_⟩
        simp only [codePoint, List.append_assoc, hw, hv, if_neg htrailing, if_pos hleading]
      · next hleading =>
        cases h
        refine ⟨w, rfl, fun r => ?_⟩
        simp only [codePoint, hw, if_neg htrailing, if_neg hleading]

theorem escape_local {s u : List Char} {d : Char} (h : escape s = .ok (d, u)) :
    ∃ w, s = w ++ u ∧ ∀ r, escape (w ++ r) = .ok (d, r) := by
  unfold escape at h
  split at h
  · cases h
  · next c t =>
    split at h
    · next hc =>
      obtain ⟨w, rfl, hw⟩ := codePoint_local h
      refine ⟨c :: w, rfl, fun r => ?_⟩
      simp only [escape, List.cons_append, if_pos hc, hw]
    · next hc =>
      split at h
      · next hd =>
        cases h
        refine ⟨[c], rfl, fun r => ?_⟩
        simp only [escape, List.cons_append, List.nil_append, if_neg hc, hd]
      · cases h

/-- The characters up to the closing quote are read alike whatever follows it. -/
theorem quoted_local {done s t u : List Char} (h : quoted done s = .ok (t, u)) :
    ∃ w, s = w ++ u ∧ ∀ r, quoted done (w ++ r) = .ok (t, r) := by
  fun_induction quoted done s with
  | case1 => cases h
  | case2 done r =>
    cases h
    refine ⟨['"'], rfl, fun r => ?_⟩
    rw [List.cons_append, List.nil_append, quoted, if_pos rfl]
  | case3 => cases h
  | case4 done r d t' he _ ih =>
    obtain ⟨w, rfl, hw⟩ := ih h
    obtain ⟨v, hv, hescape⟩ := escape_local he
    refine ⟨'\\' :: (v ++ w), by rw [hv, List.cons_append, List.append_assoc], fun r => ?_⟩
    rw [List.cons_append, List.append_assoc, quoted_backslash (hescape _), hw]
  | case5 => cases h
  | case6 done c r hq hb hc ih =>
    obtain ⟨w, rfl, hw⟩ := ih h
    refine ⟨c :: w, rfl, fun r => ?_⟩
    rw [List.cons_append, quoted_plain hq hb (Bool.eq_false_iff.mpr hc), hw]

theorem passEscape_local {s u : List Char} (h : passEscape s = .ok u) :
    ∃ w, s = w ++ u ∧ ∀ r, passEscape (w ++ r) = .ok r := by
  unfold passEscape at h
  split at h
  · cases h
  · next c t =>
    split at h
    · next hc =>
      split at h
      · cases h
      · next hn =>
        cases h
        obtain ⟨w, rfl, hw⟩ := hexGroup_local hn
        refine ⟨c :: w, rfl, fun r => ?_⟩
        simp only [passEscape, List.cons_append, if_pos hc, hw]
    · next hc =>
      split at h
      · next hd =>
        cases h
        refine ⟨[c], rfl, fun r => ?_⟩
        simp only [passEscape, List.cons_append, List.nil_append, if_neg hc, if_pos hd]
      · cases h

theorem passQuoted_plain {r : List Char} {c : Char} (hq : c ≠ '"') (hb : c ≠ '\\')
    (hc : isControl c = false) : passQuoted (c :: r) = passQuoted r := by
  rw [passQuoted, if_neg hq, if_neg hb, if_neg (by rw [hc]; decide)]

/-- The characters up to the closing quote are passed alike whatever follows it. -/
theorem passQuoted_local {s u : List Char} (h : passQuoted s = .ok u) :
    ∃ w, s = w ++ u ∧ ∀ r, passQuoted (w ++ r) = .ok r := by
  fun_induction passQuoted s with
  | case1 => cases h
  | case2 r =>
    cases h
    refine ⟨['"'], rfl, fun r => ?_⟩
    rw [List.cons_append, List.nil_append, passQuoted, if_pos rfl]
  | case3 => cases h
  | case4 r t' he _ ih =>
    obtain ⟨w, rfl, hw⟩ := ih h
    obtain ⟨v, hv, hescape⟩ := passEscape_local he
    refine ⟨'\\' :: (v ++ w), by rw [hv, List.cons_append, List.append_assoc], fun r => ?_⟩
    rw [List.cons_append, List.append_assoc, passQuoted_backslash (hescape _), hw]
  | case5 => cases h
  | case6 c r hq hb hc ih =>
    obtain ⟨w, rfl, hw⟩ := ih h
    refine ⟨c :: w, rfl, fun r => ?_⟩
    rw [List.cons_append, passQuoted_plain hq hb (Bool.eq_false_iff.mpr hc), hw]

/-! ### Words -/

theorem passWord_eq_ok {w s u : List Char} (h : passWord w s = .ok u) : s = w ++ u := by
  fun_induction passWord w s with
  | case1 => cases h; rfl
  | case2 => cases h
  | case3 e es s ih => rw [ih h]; rfl
  | case4 => cases h

/-! ### Numbers -/

/-- The text does not start with a digit. -/
def NoDigit (s : List Char) : Prop := ∀ c ∈ s.head?, c.isDigit = false

theorem takeWhile_of_noDigit {ds rest : List Char} (hd : ∀ c ∈ ds, c.isDigit = true)
    (hr : NoDigit rest) :
    (ds ++ rest).takeWhile Char.isDigit = ds ∧ (ds ++ rest).dropWhile Char.isDigit = rest := by
  have hrest : rest.takeWhile Char.isDigit = [] ∧ rest.dropWhile Char.isDigit = rest := by
    cases rest with
    | nil => exact ⟨rfl, rfl⟩
    | cons c cs =>
      rw [List.takeWhile_cons, List.dropWhile_cons, hr c rfl]
      exact ⟨rfl, rfl⟩
  rw [List.takeWhile_append_of_pos hd, List.dropWhile_append_of_pos hd, hrest.1, hrest.2,
    List.append_nil]
  exact ⟨rfl, rfl⟩

theorem scanWhole_local {e : Cause} {s t u : List Char} (h : scanWhole e s = .ok (t, u)) :
    s = t ++ u ∧ (∃ c v, t = c :: v ∧ c.isDigit = true) ∧
      ∀ r, NoDigit r → scanWhole e (t ++ r) = .ok (t, r) := by
  unfold scanWhole at h
  split at h
  · cases h
  · next c s =>
    split at h
    · next hc =>
      split at h
      · cases h
        refine ⟨rfl, ⟨c, [], rfl, by rw [hc]; rfl⟩, fun r hr => ?_⟩
        have hnone := (takeWhile_of_noDigit (List.forall_mem_nil _) hr).1
        rw [List.nil_append] at hnone
        rw [List.cons_append, List.nil_append, scanWhole, if_pos hc, hnone]
        rfl
      · cases h
    · next hc =>
      split at h
      · next hd =>
        cases h
        refine ⟨by rw [List.cons_append, List.takeWhile_append_dropWhile], ⟨c, _, rfl, hd⟩,
          fun r hr => ?_⟩
        obtain ⟨htake, hdrop⟩ := takeWhile_of_noDigit (fun _ => List.mem_takeWhile_imp) hr
        rw [List.cons_append, scanWhole, if_neg hc, if_pos hd, htake, hdrop]
      · cases h

/-- A fraction is empty or starts with a point. -/
theorem scanFraction_local {e : Cause} {s t u : List Char} (h : scanFraction e s = .ok (t, u)) :
    ∃ w, s = w ++ u ∧ (∀ c ∈ w.head?, c = '.') ∧
      ∀ r, NoDigit r → r.head? ≠ some '.' → scanFraction e (w ++ r) = .ok (t, r) := by
  have hnone : ∀ r : List Char, r.head? ≠ some '.' → scanFraction e r = .ok ([], r) := by
    intro r hr
    cases r with
    | nil => rfl
    | cons c r => rw [scanFraction, if_neg fun e => hr (by rw [e]; rfl)]
  unfold scanFraction at h
  split at h
  · cases h
    exact ⟨[], rfl, (by simp), fun r _ hr => hnone r hr⟩
  · next c s =>
    split at h
    · next hc =>
      split at h
      · cases h
      · next hd =>
        cases h
        refine ⟨c :: s.takeWhile Char.isDigit, ?_, ?_, fun r hr _ => ?_⟩
        · rw [List.cons_append, List.takeWhile_append_dropWhile]
        · intro d hd
          cases hd
          exact hc
        · obtain ⟨htake, hdrop⟩ := takeWhile_of_noDigit (fun _ => List.mem_takeWhile_imp) hr
          rw [List.cons_append, scanFraction, if_pos hc, htake, hdrop, if_neg hd]
    · cases h
      exact ⟨[], rfl, (by simp), fun r _ hr => hnone r hr⟩

/-- A sign is taken alike if a digit follows it. -/
theorem scanSign_local (s : List Char) :
    ∃ w, s = w ++ (scanSign s).2 ∧
      ∀ c r, c.isDigit = true → scanSign (w ++ c :: r) = ((scanSign s).1, c :: r) := by
  unfold scanSign
  split
  · exact ⟨['-'], rfl, fun _ _ _ => rfl⟩
  · exact ⟨['+'], rfl, fun _ _ _ => rfl⟩
  · refine ⟨[], rfl, fun c r hc => ?_⟩
    rw [List.nil_append]
    split
    · next he => cases he; exact absurd hc (by decide)
    · next he => cases he; exact absurd hc (by decide)
    · rfl

/-- An exponent is empty or starts with an `e` of either case. -/
theorem scanExponent_local {e : Cause} {s u : List Char} {x : Option (Bool × List Char)}
    (h : scanExponent e s = .ok (x, u)) :
    ∃ w, s = w ++ u ∧ (∀ c ∈ w.head?, c = 'e' ∨ c = 'E') ∧
      ∀ r, EndsNumber r → scanExponent e (w ++ r) = .ok (x, r) := by
  unfold scanExponent at h
  split at h
  · cases h
    exact ⟨[], rfl, (by simp), fun r hr => scanExponent_ends e hr⟩
  · next c s =>
    split at h
    · next hc =>
      obtain ⟨sign, hsign, hscan⟩ := scanSign_local s
      generalize hp : scanSign s = p at h hsign hscan
      obtain ⟨below, t⟩ := p
      simp only at h hsign hscan
      split at h
      · cases h
      · next hd =>
        cases h
        refine ⟨c :: (sign ++ t.takeWhile Char.isDigit), ?_, ?_, fun r hr => ?_⟩
        · rw [hsign, List.cons_append, List.append_assoc, List.takeWhile_append_dropWhile]
        · intro d hd
          cases hd
          exact hc
        · have hr : NoDigit r := fun d hd => (hr d hd).1
          obtain ⟨htake, hdrop⟩ := takeWhile_of_noDigit
            (fun c (h : c ∈ t.takeWhile Char.isDigit) => List.mem_takeWhile_imp h) hr
          have hstart : scanSign (sign ++ (t.takeWhile Char.isDigit ++ r)) =
              (below, t.takeWhile Char.isDigit ++ r) := by
            cases hds : t.takeWhile Char.isDigit with
            | nil => rw [hds] at hd; exact absurd rfl hd
            | cons d ds =>
              have hmem : d ∈ t.takeWhile Char.isDigit := by
                rw [hds]
                exact List.mem_cons_self
              exact hscan d (ds ++ r) (List.mem_takeWhile_imp hmem)
          rw [List.cons_append, List.append_assoc, scanExponent, if_pos hc]
          simp only [hstart, htake, hdrop, if_neg hd]
    · next hc =>
      cases h
      exact ⟨[], rfl, (by simp), fun r hr => scanExponent_ends e hr⟩

/-- The parts of a number behind its sign. -/
def scanUnsigned (e : Cause) (negative : Bool) (s : List Char) :
    Except Stop (Literal × List Char) :=
  match scanWhole e s with
  | .error stop => .error stop
  | .ok (whole, s) =>
    match scanFraction e s with
    | .error stop => .error stop
    | .ok (fraction, s) =>
      match scanExponent e s with
      | .error stop => .error stop
      | .ok (exponent, s) => .ok (⟨negative, whole, fraction, exponent⟩, s)

theorem scan_minus (e : Cause) (s : List Char) :
    Literal.scan e ('-' :: s) = scanUnsigned e true s := rfl

theorem scan_of_ne {e : Cause} {s : List Char} (h : ∀ t, s ≠ '-' :: t) :
    Literal.scan e s = scanUnsigned e false s := by
  unfold Literal.scan
  split
  next negative t ht =>
  split at ht
  · exact absurd rfl (h _)
  · cases ht; rfl

theorem forall_head?_append {p : Char → Prop} {w r : List Char} (hw : ∀ c ∈ w.head?, p c)
    (hr : ∀ c ∈ r.head?, p c) : ∀ c ∈ (w ++ r).head?, p c := by
  cases w with
  | nil => exact hr
  | cons c w => exact hw

/-- The parts of a number are scanned one behind the other: neither a fraction nor an
exponent starts with a digit, and no exponent with a point. -/
theorem scanUnsigned_local {e : Cause} {negative : Bool} {s u : List Char} {l : Literal}
    (h : scanUnsigned e negative s = .ok (l, u)) :
    ∃ w, s = w ++ u ∧ (∃ c v, w = c :: v ∧ c.isDigit = true) ∧
      ∀ r, EndsNumber r → scanUnsigned e negative (w ++ r) = .ok (l, r) := by
  unfold scanUnsigned at h
  split at h
  · cases h
  · next whole s₁ h₁ =>
    split at h
    · cases h
    · next fraction s₂ h₂ =>
      split at h
      · cases h
      · next exponent s₃ h₃ =>
        cases h
        obtain ⟨rfl, ⟨c, v, hc, hdigit⟩, hwhole⟩ := scanWhole_local h₁
        obtain ⟨w₂, rfl, hpoint, hfraction⟩ := scanFraction_local h₂
        obtain ⟨w₃, rfl, hexp, hexponent⟩ := scanExponent_local h₃
        refine ⟨whole ++ (w₂ ++ w₃), ?_, ⟨c, v ++ (w₂ ++ w₃), by rw [hc]; rfl, hdigit⟩,
          fun r hr => ?_⟩
        · rw [List.append_assoc, List.append_assoc]
        · have hlast : ∀ c ∈ (w₃ ++ r).head?, c.isDigit = false ∧ c ≠ '.' := by
            refine forall_head?_append (fun c hc => ?_) fun c hc => ⟨(hr c hc).1, (hr c hc).2.1⟩
            rcases hexp c hc with rfl | rfl
            · exact ⟨rfl, by decide⟩
            · exact ⟨rfl, by decide⟩
          have hfirst : NoDigit (w₂ ++ (w₃ ++ r)) := by
            refine forall_head?_append (fun c hc => ?_) fun c hc => (hlast c hc).1
            rw [hpoint c hc]
            rfl
          have hdot : (w₃ ++ r).head? ≠ some '.' := fun h => (hlast '.' h).2 rfl
          unfold scanUnsigned
          simp only [List.append_assoc, hwhole _ hfirst, hfraction _ (fun c hc => (hlast c hc).1)
            hdot, hexponent r hr]

/-- A number is scanned alike whatever follows it and does not go on with it. -/
theorem scan_local {e : Cause} {s u : List Char} {l : Literal}
    (h : Literal.scan e s = .ok (l, u)) :
    ∃ w, s = w ++ u ∧ (∃ c v, w = c :: v ∧ (c = '-' ∨ c.isDigit = true)) ∧
      ∀ r, EndsNumber r → Literal.scan e (w ++ r) = .ok (l, r) := by
  by_cases hs : ∃ t, s = '-' :: t
  · obtain ⟨t, rfl⟩ := hs
    rw [scan_minus] at h
    obtain ⟨w, rfl, -, hw⟩ := scanUnsigned_local h
    refine ⟨'-' :: w, rfl, ⟨'-', w, rfl, .inl rfl⟩, fun r hr => ?_⟩
    rw [List.cons_append, scan_minus, hw r hr]
  · have hne : ∀ t, s ≠ '-' :: t := fun t ht => hs ⟨t, ht⟩
    rw [scan_of_ne hne] at h
    obtain ⟨w, rfl, ⟨c, v, rfl, hc⟩, hw⟩ := scanUnsigned_local h
    refine ⟨c :: v, rfl, ⟨c, v, rfl, .inr hc⟩, fun r hr => ?_⟩
    rw [scan_of_ne fun t ht => by cases ht; exact absurd hc (by decide)]
    exact hw r hr

theorem readNumber_local {s u : List Char} {n : Number} (h : readNumber s = .ok (n, u)) :
    ∃ w, s = w ++ u ∧ (∃ c v, w = c :: v ∧ (c = '-' ∨ c.isDigit = true)) ∧
      ∀ r, EndsNumber r → readNumber (w ++ r) = .ok (n, r) := by
  unfold readNumber at h
  split at h
  · cases h
  · next l t hl =>
    obtain ⟨w, rfl, hstart, hw⟩ := scan_local hl
    split at h
    · cases h
    · next hn =>
      cases h
      refine ⟨w, rfl, hstart, fun r hr => ?_⟩
      simp only [readNumber, hw r hr, hn]

theorem passNumber_local {s u : List Char} (h : passNumber s = .ok u) :
    ∃ w, s = w ++ u ∧ (∃ c v, w = c :: v ∧ (c = '-' ∨ c.isDigit = true)) ∧
      ∀ r, EndsNumber r → passNumber (w ++ r) = .ok r := by
  unfold passNumber at h
  split at h
  · cases h
  · next l t hl =>
    cases h
    obtain ⟨w, rfl, hstart, hw⟩ := scan_local hl
    refine ⟨w, rfl, hstart, fun r hr => ?_⟩
    simp only [passNumber, hw r hr]

/-! ### Scalars -/

/-- Spaces and nothing else. -/
def Blank (s : List Char) : Prop := ∀ c ∈ s, isSpace c = true

theorem skipSpace_blank {sp s : List Char} (h : Blank sp) : skipSpace (sp ++ s) = skipSpace s := by
  unfold skipSpace
  exact List.dropWhile_append_of_pos h

theorem exists_blank (s : List Char) : ∃ sp, Blank sp ∧ s = sp ++ skipSpace s :=
  ⟨s.takeWhile isSpace, fun _ => List.mem_takeWhile_imp, List.takeWhile_append_dropWhile.symm⟩

theorem startsEntry_number {c : Char} (h : c = '-' ∨ c.isDigit = true) (s : List Char) :
    StartsEntry (c :: s) := by
  rcases h with rfl | h
  · exact ⟨'-', s, rfl, rfl, by decide, by decide⟩
  · exact ⟨c, s, rfl, isSpace_of_isDigit h, ne_of_isDigit h rfl, ne_of_isDigit h rfl⟩

theorem ne_of_number {c d : Char} (h : c = '-' ∨ c.isDigit = true) (hd : d ≠ '-')
    (hdigit : d.isDigit = false) : c ≠ d := by
  rcases h with rfl | h
  · exact hd.symm
  · exact ne_of_isDigit h hdigit

theorem head_number {c : Char} (h : c = '-' ∨ c.isDigit = true) (s : List Char) :
    head (c :: s) = numberHead (c :: s) := by
  obtain ⟨_, _, hs, hc, -⟩ := startsEntry_number h s
  cases hs
  rw [head, skipSpace_cons hc, headOf, if_neg (ne_of_number h (by decide) rfl),
    if_neg (ne_of_number h (by decide) rfl), if_neg (ne_of_number h (by decide) rfl), if_pos h]

theorem passHead_number {c : Char} (h : c = '-' ∨ c.isDigit = true) (s : List Char) :
    passHead (c :: s) = passedScalar (passNumber (c :: s)) := by
  obtain ⟨_, _, hs, hc, -⟩ := startsEntry_number h s
  cases hs
  rw [passHead, skipSpace_cons hc]
  simp only
  rw [if_neg (ne_of_number h (by decide) rfl), if_neg (ne_of_number h (by decide) rfl),
    if_neg (ne_of_number h (by decide) rfl), if_pos h]

/-- A scalar is read alike whatever follows it and does not go on with a number. -/
theorem head_scalar_local {s u : List Char} {v : Scalar} (h : head s = .ok (.scalar v u)) :
    ∃ sp w, Blank sp ∧ s = sp ++ (w ++ u) ∧ StartsEntry w ∧
      ∀ r, EndsNumber r → head (w ++ r) = .ok (.scalar v r) := by
  obtain ⟨sp, hsp, hsplit⟩ := exists_blank s
  cases begins_of_head h with
  | null hs hw =>
    rw [hs, passWord_eq_ok hw] at hsplit
    exact ⟨sp, ['n', 'u', 'l', 'l'], hsp, hsplit, ⟨'n', _, rfl, rfl, by decide, by decide⟩,
      fun _ _ => rfl⟩
  | yes hs hw =>
    rw [hs, passWord_eq_ok hw] at hsplit
    exact ⟨sp, ['t', 'r', 'u', 'e'], hsp, hsplit, ⟨'t', _, rfl, rfl, by decide, by decide⟩,
      fun _ _ => rfl⟩
  | no hs hw =>
    rw [hs, passWord_eq_ok hw] at hsplit
    exact ⟨sp, ['f', 'a', 'l', 's', 'e'], hsp, hsplit,
      ⟨'f', _, rfl, rfl, by decide, by decide⟩, fun _ _ => rfl⟩
  | number hs hd hr =>
    obtain ⟨w, hw, ⟨c, v, rfl, hc⟩, hread⟩ := readNumber_local hr
    refine ⟨sp, c :: v, hsp, by rw [hsplit, hs, hw], startsEntry_number hc v, fun r hr => ?_⟩
    rw [List.cons_append, head_number hc, numberHead, ← List.cons_append, hread r hr]
  | text hs hq =>
    obtain ⟨w, rfl, hread⟩ := quoted_local hq
    refine ⟨sp, '"' :: w, hsp, by rw [hsplit, hs, List.cons_append],
      ⟨'"', w, rfl, rfl, by decide, by decide⟩, fun r _ => ?_⟩
    rw [List.cons_append, head, skipSpace_cons rfl]
    show textHead (w ++ r) = _
    rw [textHead, hread]

/-- A scalar is passed alike whatever follows it and does not go on with a number. -/
theorem passHead_scalar_local {s u : List Char} (h : passHead s = .ok (.scalar u)) :
    ∃ sp w, Blank sp ∧ s = sp ++ (w ++ u) ∧ StartsEntry w ∧
      ∀ r, EndsNumber r → passHead (w ++ r) = .ok (.scalar r) := by
  obtain ⟨sp, hsp, hsplit⟩ := exists_blank s
  unfold passHead at h
  split at h
  · cases h
  · next c t hs =>
    rw [hs] at hsplit
    split at h
    · next hc =>
      rw [hc, passWord_eq_ok (passedScalar_rest h)] at hsplit
      exact ⟨sp, ['n', 'u', 'l', 'l'], hsp, hsplit, ⟨'n', _, rfl, rfl, by decide, by decide⟩,
        fun _ _ => rfl⟩
    split at h
    · next hc =>
      rw [hc, passWord_eq_ok (passedScalar_rest h)] at hsplit
      exact ⟨sp, ['t', 'r', 'u', 'e'], hsp, hsplit, ⟨'t', _, rfl, rfl, by decide, by decide⟩,
        fun _ _ => rfl⟩
    split at h
    · next hc =>
      rw [hc, passWord_eq_ok (passedScalar_rest h)] at hsplit
      exact ⟨sp, ['f', 'a', 'l', 's', 'e'], hsp, hsplit,
        ⟨'f', _, rfl, rfl, by decide, by decide⟩, fun _ _ => rfl⟩
    split at h
    · next hc =>
      obtain ⟨w, hw, ⟨d, v, rfl, hd⟩, hpass⟩ := passNumber_local (passedScalar_rest h)
      refine ⟨sp, d :: v, hsp, by rw [hsplit, hw]; rfl, startsEntry_number hd v, fun r hr => ?_⟩
      rw [List.cons_append, passHead_number hd, ← List.cons_append, hpass r hr, passedScalar]
    split at h
    · next hc =>
      obtain ⟨w, hw, hpass⟩ := passQuoted_local (passedScalar_rest h)
      refine ⟨sp, '"' :: w, hsp, by rw [hsplit, hc, hw]; rfl,
        ⟨'"', w, rfl, rfl, by decide, by decide⟩, fun r _ => ?_⟩
      rw [List.cons_append, passHead, skipSpace_cons rfl]
      show passedScalar (passQuoted (w ++ r)) = _
      rw [hpass, passedScalar]
    split at h
    · cases h
    split at h <;> cases h

end Json
end ModelStubs
