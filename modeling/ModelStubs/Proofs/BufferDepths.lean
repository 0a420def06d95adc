/-
# How deep a buffer stands

A dedent at depth zero comes to nothing, so the depth of a buffer is not the number of indents
less the number of dedents: from such a dedent on every line is one tab deeper than that. What
the number has to be measured from is the least that it has been so far, the zero before the
first call included (`Stub.Buffer.depth_run`). One call changes the number by at most one and
the depth with it, cut off at zero, and the least value is lowered exactly where the depth is
cut off; so one step is a line of arithmetic, and the rest is induction on the calls.

The tabs stand once before the text of a line, however many lines the text has itself. Nothing
that was put into a buffer is changed later: what it holds is the pieces of the calls in their
order, and it only ever grows (`Stub.Buffer.run_eq_pieces`).

Key definitions: `Stub.Buffer.Call`, `Stub.Buffer.run`, `Stub.Buffer.balance`,
`Stub.Buffer.lowest`, `Stub.Buffer.pieces`.
Key theorems: `Stub.Buffer.depth_after`, `Stub.Buffer.depth_run`, `Stub.Buffer.run_eq_pieces`.
-/
import Mathlib.Data.Finset.Lattice.Fold
import ModelStubs.Proofs.StubTexts

namespace ModelStubs
namespace Stub
namespace Buffer

/-- What a buffer is asked to do. -/
inductive Call
  | add (s : String)
  | addLine (s : String)
  | addIndented (s : String)
  | indent
  | dedent
deriving DecidableEq, Repr

/-- The buffer after a call. -/
def after (b : Buffer) : Call → Buffer
  | .add s => b.add s
  | .addLine s => b.addLine s
  | .addIndented s => b.addIndented s
  | .indent => b.indent
  | .dedent => b.dedent

/-- A new buffer after calls. -/
def run (calls : List Call) : Buffer := calls.foldl after empty

/-- How many of the first `k` calls are indents, less how many of them are dedents. -/
def balance (calls : List Call) (k : Nat) : Int :=
  (calls.take k).count .indent - (calls.take k).count .dedent

/-- The least balance up to the first `n` calls. -/
def lowest (calls : List Call) (n : Nat) : Int :=
  (Finset.range (n + 1)).inf' Finset.nonempty_range_add_one (balance calls)

/-- The tabs of a line that is added behind the first `n` calls. -/
def tabsAt (calls : List Call) (n : Nat) : Nat := (balance calls n - lowest calls n).toNat

/-- How a call changes the balance. -/
def Call.rise : Call → Int
  | .indent => 1
  | .dedent => -1
  | _ => 0

/-- What a call adds to the text if lines have the given number of tabs. -/
def Call.piece (depth : Nat) : Call → String
  | .add s => s
  | .addLine s => tabs depth ++ s ++ "\n"
  | .addIndented s => tabs depth ++ s
  | .indent => ""
  | .dedent => ""

/-- What the calls add to the text, in order. -/
def pieces (calls : List Call) : List String := calls.mapIdx fun n c => c.piece (tabsAt calls n)

/-! ### One call -/

/-- The depth goes the way of the balance, but not below zero. -/
theorem depth_after (b : Buffer) (c : Call) :
    ((b.after c).depth : Int) = max 0 (b.depth + c.rise) := by
  cases c with
  | add s => simp [after, Call.rise]
  | addLine s => simp [after, Call.rise]
  | addIndented s => simp [after, addIndented, Call.rise]
  | indent => simp only [after, depth_indent, Call.rise]; omega
  | dedent => simp only [after, depth_dedent, Call.rise]; omega

theorem text_after (b : Buffer) (c : Call) : (b.after c).text = b.text ++ c.piece b.depth := by
  cases c with
  | add s => simp [after, Call.piece]
  | addLine s => simp [after, Call.piece, lineSeparator, String.append_assoc]
  | addIndented s => simp [after, addIndented, Call.piece]
  | indent => simp [after, Call.piece]
  | dedent => simp [after, Call.piece]

theorem count_singleton_sub (c : Call) :
    (([c].count .indent : Nat) : Int) - ([c].count .dedent : Nat) = c.rise := by
  cases c <;> simp [Call.rise]

variable {calls : List Call} {n : Nat}

/-- Behind the last call nothing is left to take. -/
theorem take_succ_of_not_lt (h : ¬ n < calls.length) : calls.take (n + 1) = calls.take n := by
  rw [List.take_of_length_le (by omega), List.take_of_length_le (by omega)]

theorem run_take_succ (h : n < calls.length) :
    run (calls.take (n + 1)) = (run (calls.take n)).after calls[n] := by
  rw [List.take_succ_eq_append_getElem h, run, List.foldl_append]
  rfl

theorem balance_succ (h : n < calls.length) :
    balance calls (n + 1) = balance calls n + calls[n].rise := by
  rw [balance, balance, List.take_succ_eq_append_getElem h, List.count_append, List.count_append,
    ← count_singleton_sub calls[n]]
  omega

theorem lowest_succ (calls : List Call) (n : Nat) :
    lowest calls (n + 1) = min (lowest calls n) (balance calls (n + 1)) := by
  unfold lowest
  rw [Finset.inf'_congr (Finset.nonempty_range_add_one) Finset.range_add_one fun _ _ => rfl,
    Finset.inf'_insert Finset.nonempty_range_add_one, min_comm]

/-! ### All calls -/

/-- **The depth is the balance above its lowest value so far.** -/
theorem depth_run (calls : List Call) (n : Nat) :
    ((run (calls.take n)).depth : Int) = balance calls n - lowest calls n := by
  induction n with
  | zero => simp [run, balance, lowest]
  | succ n ih =>
    rw [lowest_succ]
    by_cases h : n < calls.length
    · have hstep := depth_after (run (calls.take n)) calls[n]
      rw [run_take_succ h, balance_succ h, hstep, ih]
      omega
    · have hbalance : balance calls (n + 1) = balance calls n := by
        rw [balance, balance, take_succ_of_not_lt h]
      rw [take_succ_of_not_lt h, hbalance, ih]
      omega

theorem tabsAt_eq (calls : List Call) (n : Nat) : tabsAt calls n = (run (calls.take n)).depth := by
  rw [tabsAt, ← depth_run]
  exact Int.toNat_natCast _

theorem text_run_take_succ (h : n < calls.length) : (run (calls.take (n + 1))).text =
    (run (calls.take n)).text ++ calls[n].piece (tabsAt calls n) := by
  rw [run_take_succ h, text_after, tabsAt_eq]

theorem text_run_take (calls : List Call) : ∀ n ≤ calls.length,
    (run (calls.take n)).text = String.join ((pieces calls).take n)
  | 0, _ => by simp [run]
  | n + 1, h => by
    have hn : n < (pieces calls).length := by
      rw [pieces, List.length_mapIdx]
      omega
    have hpiece : (pieces calls)[n] = calls[n].piece (tabsAt calls n) := by simp [pieces]
    rw [text_run_take_succ h, text_run_take calls n (by omega), List.take_succ_eq_append_getElem hn,
      hpiece]
    simp

theorem prefix_text_run (calls : List Call) {m n : Nat} (h : m ≤ n) :
    (run (calls.take m)).text.toList <+: (run (calls.take n)).text.toList := by
  induction n, h using Nat.le_induction with
  | base => exact List.prefix_rfl
  | succ n _ ih =>
    by_cases hn : n < calls.length
    · rw [text_run_take_succ hn, String.toList_append]
      exact ih.trans (List.prefix_append _ _)
    · rwa [take_succ_of_not_lt hn]

/-- **A buffer holds the pieces of its calls.** A line has as many tabs as the balance of the
calls before it is above the lowest balance so far; each call puts its piece behind the text
that is there, the tabs of a line once before its text; so the whole text is the pieces in their
order, and every text is the beginning of all later ones. -/
theorem run_eq_pieces (calls : List Call) :
    (∀ n, (tabsAt calls n : Int) = balance calls n - lowest calls n) ∧
    (∀ n (h : n < calls.length), (run (calls.take (n + 1))).text =
      (run (calls.take n)).text ++ calls[n].piece (tabsAt calls n)) ∧
    (run calls).text = String.join (pieces calls) ∧
    ∀ m n, m ≤ n → (run (calls.take m)).text.toList <+: (run (calls.take n)).text.toList := by
  refine ⟨fun n => ?_, fun n h => text_run_take_succ h, ?_, fun m n h => prefix_text_run calls h⟩
  · rw [tabsAt_eq, depth_run]
  · have hall := text_run_take calls calls.length (Nat.le_refl _)
    have hlength : (pieces calls).length = calls.length := by rw [pieces, List.length_mapIdx]
    rw [List.take_length] at hall
    rw [hall, ← hlength, List.take_length]

/-- One dedent too many, and a line with a line break in it. -/
def overstepping : List Call :=
  [.addLine "one", .dedent, .indent, .addLine "two\nthree", .dedent, .add "four"]

theorem run_eq_pieces_overstepping :
    3 < overstepping.length ∧ 3 ≤ 6 ∧
    (tabsAt overstepping 3 : Int) = balance overstepping 3 - lowest overstepping 3 ∧
    (run (overstepping.take 4)).text = (run (overstepping.take 3)).text ++
      (Call.addLine "two\nthree").piece (tabsAt overstepping 3) ∧
    (run overstepping).text = String.join (pieces overstepping) ∧
    (run (overstepping.take 3)).text.toList <+: (run (overstepping.take 6)).text.toList := by
  obtain ⟨htabs, hstep, hall, hgrows⟩ := run_eq_pieces overstepping
  have hlength : 3 < overstepping.length := by decide
  exact ⟨hlength, by decide, htabs 3, hstep 3 hlength, hall, hgrows 3 6 (by decide)⟩

/-- The dedent that came to nothing leaves the next line one step deep, at balance zero. -/
example : balance overstepping 3 = 0 ∧ (run overstepping).text = "one\n\ttwo\nthree\nfour" := by
  decide

end Buffer
end Stub
end ModelStubs
