/-
# What a sink is asked to write

`Output.writeFiles` looks at every key before it asks the sink for anything, and
then makes one call per file in the order of the keys until a call fails. The sink
is any state machine: it has any state, and any of its answers may be a failure. To
say which calls it receives, `Output.Sink.recorded` writes them down beside the
state of the sink.

Key definitions: `Output.Sink.call`, `Output.Sink.recorded`, `Output.Sink.Succeeds`,
`Output.Calls`, `Output.Written`.
Key theorems: `Output.writeFiles_written`.
-/
import Mathlib.Data.List.Forall2
import ModelStubs.Output.Sink
import ModelStubs.Proofs.Keys
import ModelStubs.Proofs.Listings

namespace ModelStubs
namespace Output

open Disk (Path)

/-- A path and the text to be written there. -/
abbrev Call : Type := Path × String

variable {σ : Type}

/-- The answer of a sink to a call, and its state afterwards. -/
def Sink.call (sink : Sink (StateM σ)) (x : σ) (c : Call) : Except Disk.Error Path × σ :=
  (sink.write c.1 c.2).run x

/-- The sink with the calls it received, in order, beside its state. -/
def Sink.recorded (sink : Sink (StateM σ)) : Sink (StateM (σ × List Call)) where
  write path text := fun (x, calls) =>
    let (answer, y) := sink.call x (path, text)
    (answer, y, calls ++ [(path, text)])

/-- From the state `x` on the sink takes all the calls, with these paths as its
answers, and ends in the state `y`. -/
inductive Sink.Succeeds (sink : Sink (StateM σ)) : σ → List Call → List Path → σ → Prop
  | nil (x : σ) : Succeeds sink x [] [] x
  | cons {x y z : σ} {c : Call} {cs : List Call} {p : Path} {ps : List Path} :
      sink.call x c = (.ok p, y) → Succeeds sink y cs ps z →
      Succeeds sink x (c :: cs) (p :: ps) z

/-- The calls that write the entries: the path of each key with its text. -/
def Calls (entries : List (String × String)) (calls : List Call) : Prop :=
  List.Forall₂ (fun e c => outputPath e.1 = .ok c.1 ∧ e.2 = c.2) entries calls

/-- The key has to be refused. -/
def Refused (key : String) : Prop := outputPath key = .error (.invalidOutputPath key)

/-- How writing the files ends, by the result, the last state of the sink and the
calls that it received. -/
inductive Written (sink : Sink (StateM σ)) (files : GeneratedFiles) (x : σ) :
    Except Failure (List Path) → σ → List Call → Prop
  /-- A key is refused, the least of them is named, and the sink is not called. -/
  | refused {key : String} : key ∈ files.keys → Refused key →
      (∀ k ∈ files.keys, Refused k → key ≤ k) →
      Written sink files x (.error (.invalidOutputPath key)) x []
  /-- Every call succeeds. -/
  | complete {calls : List Call} {paths : List Path} {y : σ} : Calls files.entries calls →
      sink.Succeeds x calls paths y → Written sink files x (.ok paths) y calls
  /-- The calls before `c` succeed and `c` fails; it is the last. -/
  | failed {before after : List Call} {c : Call} {paths : List Path} {y z : σ}
      {e : Disk.Error} : Calls files.entries (before ++ c :: after) →
      sink.Succeeds x before paths y → sink.call y c = (.error e, z) →
      Written sink files x (.error (.disk e)) z (before ++ [c])

/-! ### Looking at the keys -/

/-- A key is refused in one way only. -/
theorem refused_of_outputPath_error {key : String} {f : Failure}
    (h : outputPath key = .error f) : f = .invalidOutputPath key := by
  rw [outputPath_eq] at h
  split at h
  · cases h
  · cases h; rfl

theorem resolved_eq_ok_iff : ∀ {es : List (String × String)} {calls : List Call},
    resolved es = .ok calls ↔ Calls es calls
  | [], calls => by
    constructor
    · intro h; cases h; exact .nil
    · intro h; cases h; rfl
  | (key, text) :: es, calls => by
    unfold resolved
    constructor
    · intro h
      split at h
      · cases h
      · next path hpath =>
        split at h
        · cases h
        · next rest hrest =>
          cases h
          exact .cons ⟨hpath, rfl⟩ (resolved_eq_ok_iff.mp hrest)
    · rintro (_ | ⟨⟨hpath, rfl⟩, hrest⟩)
      simp only [hpath, resolved_eq_ok_iff.mpr hrest]

/-- If resolving fails, the keys before the one that is named are accepted. -/
theorem resolved_eq_error : ∀ {es : List (String × String)} {f : Failure},
    resolved es = .error f → ∃ before key text after, es = before ++ (key, text) :: after ∧
      Refused key ∧ f = .invalidOutputPath key ∧ ∀ e ∈ before, ¬ Refused e.1
  | [], f, h => by cases h
  | (key, text) :: es, f, h => by
    unfold resolved at h
    split at h
    · next g hg =>
      cases h
      have hf := refused_of_outputPath_error hg
      exact ⟨[], key, text, es, rfl, by rw [Refused, hg, hf], hf, by simp⟩
    · next path hpath =>
      split at h
      · next g hg =>
        cases h
        obtain ⟨before, k, t, after, rfl, hk, rfl, hb⟩ := resolved_eq_error hg
        refine ⟨(key, text) :: before, k, t, after, rfl, hk, rfl, ?_⟩
        intro e he
        rcases List.mem_cons.mp he with rfl | he
        · intro hr
          rw [Refused, hpath] at hr
          cases hr
        · exact hb e he
      · cases h

/-- Every call comes from an entry. -/
theorem Calls.exists_entry {es : List (String × String)} {calls : List Call}
    (h : Calls es calls) {c : Call} (hc : c ∈ calls) :
    ∃ e ∈ es, outputPath e.1 = .ok c.1 ∧ e.2 = c.2 := by
  induction h with
  | nil => cases hc
  | cons hd _ ih =>
    rcases List.mem_cons.mp hc with rfl | hc
    · exact ⟨_, List.mem_cons_self, hd⟩
    · obtain ⟨e, he, h⟩ := ih hc
      exact ⟨e, List.mem_cons_of_mem _ he, h⟩

/-- Every entry makes a call. -/
theorem Calls.exists_call {es : List (String × String)} {calls : List Call}
    (h : Calls es calls) {e : String × String} (he : e ∈ es) :
    ∃ c ∈ calls, outputPath e.1 = .ok c.1 ∧ e.2 = c.2 := by
  induction h with
  | nil => cases he
  | cons hd _ ih =>
    rcases List.mem_cons.mp he with rfl | he
    · exact ⟨_, List.mem_cons_self, hd⟩
    · obtain ⟨c, hc, h⟩ := ih he
      exact ⟨c, List.mem_cons_of_mem _ hc, h⟩

/-- The last call to a path has the text of the greatest key that leads there. -/
theorem Calls.last_eq {es : List (String × String)} {calls : List Call} (h : Calls es calls)
    (hs : es.Pairwise fun a b => a.1 < b.1) {key text : String} {path : Path}
    (hm : (key, text) ∈ es) (hp : outputPath key = .ok path)
    (hmax : ∀ e ∈ es, outputPath e.1 = .ok path → e.1 ≤ key) :
    calls.reverse.lookup path = some text := by
  induction h with
  | nil => cases hm
  | @cons e c es calls hd ht ih =>
    obtain ⟨h1, h2⟩ := List.pairwise_cons.mp hs
    rw [List.reverse_cons, List.lookup_append]
    rcases List.mem_cons.mp hm with rfl | hm
    · have hnone : calls.reverse.lookup path = none := by
        rw [List.lookup_eq_none_iff]
        intro d hd'
        obtain ⟨e', he', hp', -⟩ := Calls.exists_entry ht (List.mem_reverse.mp hd')
        rw [bne_iff_ne]
        intro hpd
        rw [← hpd] at hp'
        have hle := hmax e' (List.mem_cons_of_mem _ he') hp'
        exact String.not_le.mpr (h1 e' he') hle
      have hc : c.1 = path := by
        have := hd.1.symm.trans hp
        injection this
      have ht : text = c.2 := hd.2
      rw [hnone, ← hc, ht]
      exact List.lookup_cons_self
    · rw [ih h2 hm fun e' he' => hmax e' (List.mem_cons_of_mem _ he')]
      rfl

/-! ### Making the calls -/

theorem writeAll_nil (sink : Sink (StateM σ)) (x : σ) :
    (writeAll sink []).run x = (.ok [], x) := rfl

theorem writeAll_cons_error {sink : Sink (StateM σ)} {x y : σ} {c : Call} {cs : List Call}
    {e : Disk.Error} (h : sink.call x c = (.error e, y)) :
    (writeAll sink (c :: cs)).run x = (.error (.disk e), y) := by
  have h : (sink.write c.1 c.2).run x = (.error e, y) := h
  rw [writeAll, StateT.run_bind, h]
  rfl

theorem writeAll_cons_ok {sink : Sink (StateM σ)} {x y : σ} {c : Call} {cs : List Call}
    {p : Path} (h : sink.call x c = (.ok p, y)) :
    (writeAll sink (c :: cs)).run x =
      match (writeAll sink cs).run y with
      | (.error f, z) => (.error f, z)
      | (.ok ps, z) => (.ok (p :: ps), z) := by
  have h : (sink.write c.1 c.2).run x = (.ok p, y) := h
  rw [writeAll, StateT.run_bind, h]
  show (StateT.run (_ >>= _) y) = _
  rw [StateT.run_bind]
  show (match (writeAll sink cs).run y with | (a, z) => _) = _
  rcases (writeAll sink cs).run y with ⟨_ | _, z⟩ <;> rfl

theorem writeAll_of_succeeds {sink : Sink (StateM σ)} {x y : σ} {cs : List Call}
    {ps : List Path} (h : sink.Succeeds x cs ps y) :
    (writeAll sink cs).run x = (.ok ps, y) := by
  induction h with
  | nil x => exact writeAll_nil sink x
  | cons hc _ ih => rw [writeAll_cons_ok hc, ih]

theorem writeAll_of_fails {sink : Sink (StateM σ)} {x y z : σ} {before after : List Call}
    {c : Call} {ps : List Path} {e : Disk.Error} (h : sink.Succeeds x before ps y)
    (hc : sink.call y c = (.error e, z)) :
    (writeAll sink (before ++ c :: after)).run x = (.error (.disk e), z) := by
  induction h with
  | nil x => exact writeAll_cons_error hc
  | cons hd _ ih => rw [List.cons_append, writeAll_cons_ok hd, ih hc]

/-- Either all calls succeed, or there is a first one that fails. -/
theorem Sink.succeeds_or_fails (sink : Sink (StateM σ)) : ∀ (cs : List Call) (x : σ),
    (∃ ps y, sink.Succeeds x cs ps y) ∨
      ∃ before c after ps y e z, cs = before ++ c :: after ∧ sink.Succeeds x before ps y ∧
        sink.call y c = (.error e, z)
  | [], x => .inl ⟨[], x, .nil x⟩
  | c :: cs, x => by
    rcases hc : sink.call x c with ⟨e | p, y⟩
    · exact .inr ⟨[], c, cs, [], x, e, y, rfl, .nil x, hc⟩
    · rcases sink.succeeds_or_fails cs y with ⟨ps, z, h⟩ | ⟨before, d, after, ps, z, e, w, h⟩
      · exact .inl ⟨p :: ps, z, .cons hc h⟩
      · obtain ⟨rfl, h, hd⟩ := h
        exact .inr ⟨c :: before, d, after, p :: ps, z, e, w, rfl, .cons hc h, hd⟩

/-- If texts are written then the sink took every call. -/
theorem succeeds_of_writeAll {sink : Sink (StateM σ)} {cs : List Call} {x y : σ}
    {ps : List Path} (h : (writeAll sink cs).run x = (.ok ps, y)) : sink.Succeeds x cs ps y := by
  rcases sink.succeeds_or_fails cs x with
    ⟨qs, z, hs⟩ | ⟨before, c, after, qs, z, e, w, rfl, hs, hc⟩
  · rw [writeAll_of_succeeds hs] at h
    cases h
    exact hs
  · rw [writeAll_of_fails hs hc] at h
    cases h

/-- There is one answer for each call. -/
theorem Sink.Succeeds.length_eq {sink : Sink (StateM σ)} {x y : σ} {cs : List Call}
    {ps : List Path} (h : sink.Succeeds x cs ps y) : ps.length = cs.length := by
  induction h with
  | nil => rfl
  | cons _ _ ih => rw [List.length_cons, List.length_cons, ih]

/-- Calls that succeed may be followed by others. -/
theorem Sink.Succeeds.append {sink : Sink (StateM σ)} {x y z : σ} {cs ds : List Call}
    {ps qs : List Path} (h : sink.Succeeds x cs ps y) (h' : sink.Succeeds y ds qs z) :
    sink.Succeeds x (cs ++ ds) (ps ++ qs) z := by
  induction h with
  | nil => exact h'
  | cons hc _ ih => exact .cons hc (ih h')

/-- What a sink answers to calls, and its last state, are determined. -/
theorem Sink.Succeeds.unique {sink : Sink (StateM σ)} {x y y' : σ} {cs : List Call}
    {ps ps' : List Path} (h : sink.Succeeds x cs ps y) (h' : sink.Succeeds x cs ps' y') :
    ps = ps' ∧ y = y' := by
  induction h generalizing ps' y' with
  | nil => cases h'; exact ⟨rfl, rfl⟩
  | cons hc _ ih =>
    cases h' with
    | cons hc' h' =>
      rw [hc] at hc'
      cases hc'
      obtain ⟨rfl, rfl⟩ := ih h'
      exact ⟨rfl, rfl⟩

/-- Of calls that succeed the first ones do, and the others from there on. -/
theorem Sink.Succeeds.split {sink : Sink (StateM σ)} {x z : σ} : ∀ {cs ds : List Call}
    {rs : List Path}, sink.Succeeds x (cs ++ ds) rs z →
    ∃ ps y qs, sink.Succeeds x cs ps y ∧ sink.Succeeds y ds qs z
  | [], ds, rs, h => ⟨[], x, rs, .nil x, h⟩
  | c :: cs, ds, _, .cons hc h => by
    obtain ⟨ps, y, qs, h1, h2⟩ := Sink.Succeeds.split h
    exact ⟨_, y, qs, .cons hc h1, h2⟩

/-- Calls do not all succeed if one of them fails after those before it. -/
theorem Sink.Succeeds.not_succeeds {sink : Sink (StateM σ)} {x y z : σ}
    {before after : List Call} {c : Call} {ps : List Path} {e : Disk.Error}
    (h : sink.Succeeds x before ps y) (hc : sink.call y c = (.error e, z)) (qs : List Path)
    (w : σ) : ¬ sink.Succeeds x (before ++ c :: after) qs w := by
  intro hall
  obtain ⟨_, y', _, h1, h2⟩ := hall.split
  obtain ⟨-, rfl⟩ := h.unique h1
  cases h2 with
  | cons hc' _ =>
    rw [hc] at hc'
    cases hc'

/-! ### The record -/

theorem Sink.recorded_call (sink : Sink (StateM σ)) (x : σ) (calls : List Call) (c : Call) :
    sink.recorded.call (x, calls) c = ((sink.call x c).1, (sink.call x c).2, calls ++ [c]) := rfl

/-- Calls that succeed are all written down, behind those before. -/
theorem Sink.Succeeds.recorded {sink : Sink (StateM σ)} {x y : σ} {cs : List Call}
    {ps : List Path} (h : sink.Succeeds x cs ps y) : ∀ calls : List Call,
    sink.recorded.Succeeds (x, calls) cs ps (y, calls ++ cs) := by
  induction h with
  | nil x => intro calls; rw [List.append_nil]; exact .nil _
  | @cons x y z c cs p ps hc _ ih =>
    intro calls
    refine .cons (y := (y, calls ++ [c])) ?_ ?_
    · rw [Sink.recorded_call, hc]
    · have h := ih (calls ++ [c])
      rw [List.append_assoc] at h
      exact h

/-! ### The law -/

/-- A key before which no key of the entries is refused is the least that is. -/
theorem least_refused {files : GeneratedFiles} {before after : List (String × String)}
    {key text : String} (he : files.entries = before ++ (key, text) :: after)
    (hb : ∀ e ∈ before, ¬ Refused e.1) : ∀ k ∈ files.keys, Refused k → key ≤ k := by
  intro k hk hr
  have hs := files.increasing_keys
  rw [Listing.keys, he, List.map_append, List.map_cons] at hk hs
  rcases List.mem_append.mp hk with hk | hk
  · obtain ⟨e, hm, rfl⟩ := List.mem_map.mp hk
    exact absurd hr (hb e hm)
  · rcases List.mem_cons.mp hk with rfl | hk
    · exact String.le_refl _
    · have h := (List.pairwise_cons.mp (List.pairwise_append.mp hs).2.1).1 k hk
      exact Std.le_of_lt h

theorem writeFiles_of_resolved {sink : Sink (StateM σ)} {files : GeneratedFiles}
    {calls : List Call} (h : resolved files.entries = .ok calls) (x : σ) :
    (writeFiles sink files).run x = (writeAll sink calls).run x := by
  rw [writeFiles, h]

theorem writeFiles_of_error {sink : Sink (StateM σ)} {files : GeneratedFiles}
    {f : Failure} (h : resolved files.entries = .error f) (x : σ) :
    (writeFiles sink files).run x = (.error f, x) := by
  rw [writeFiles, h]
  rfl

/-- **Writing files asks for all or nothing, and stops at the first failure.** Whatever
the sink and its state, the run ends in one of the three ways of `Written`, with the
same result and state whether or not the calls are recorded; the keys, in whose order
the calls are made, increase; and a success answers one path for each key. -/
theorem writeFiles_written (sink : Sink (StateM σ)) (files : GeneratedFiles) (x : σ) :
    ∃ result y calls,
      (writeFiles sink files).run x = (result, y) ∧
      (writeFiles sink.recorded files).run (x, []) = (result, y, calls) ∧
      Written sink files x result y calls ∧
      files.keys.Pairwise (· < ·) ∧
      ∀ paths, result = .ok paths → paths.length = files.size := by
  have hk := files.increasing_keys
  cases hr : resolved files.entries with
  | error f =>
    obtain ⟨before, key, text, after, he, hkey, rfl, hb⟩ := resolved_eq_error hr
    have hm : key ∈ files.keys := by simp [Listing.keys, he]
    refine ⟨_, x, [], writeFiles_of_error hr x, writeFiles_of_error hr _,
      .refused hm hkey (least_refused he hb), hk, ?_⟩
    intro paths h
    cases h
  | ok calls =>
    have hc := resolved_eq_ok_iff.mp hr
    rcases sink.succeeds_or_fails calls x with ⟨ps, y, h⟩ | h
    · refine ⟨.ok ps, y, calls, ?_, ?_, .complete hc h, hk, ?_⟩
      · rw [writeFiles_of_resolved hr, writeAll_of_succeeds h]
      · rw [writeFiles_of_resolved hr, writeAll_of_succeeds (h.recorded [])]
        rfl
      · intro paths hp
        cases hp
        rw [h.length_eq, ← hc.length_eq]
        rfl
    · obtain ⟨before, c, after, ps, y, e, z, rfl, h, hf⟩ := h
      refine ⟨.error (.disk e), z, before ++ [c], ?_, ?_, .failed hc h hf, hk, ?_⟩
      · rw [writeFiles_of_resolved hr, writeAll_of_fails h hf]
      · have hf' : sink.recorded.call (y, [] ++ before) c = (.error e, z, before ++ [c]) := by
          rw [Sink.recorded_call, hf]
          rfl
        rw [writeFiles_of_resolved hr, writeAll_of_fails (h.recorded []) hf']
      · intro paths hp
        cases hp

end Output
end ModelStubs
