/-
# A memory sink after any history

A memory sink may be asked for anything: listings of files, some of which are refused, and
single texts at paths that no key leads to. It takes every call, so what it holds at the end is
settled by the calls alone, in the order in which they came (`Output.mapM_carryOut`). Of the
calls to one path, however it is spelled, the first decides how the path is spelled and the last
what the text is (`Output.get?_rememberAll_eq`): so the sink holds one text for each path that
was written to and nothing else, in the order of the paths (`Output.memory_is_lastWrites`).

Key definitions: `Output.SinkRequest`, `Output.carryOut`, `Output.History`, `Output.contents`,
`Output.FirstSpelling`, `Output.LatestText`, `Output.LastWrites`.
Key theorems: `Output.mapM_carryOut`, `Output.get?_rememberAll_eq`, `Output.lastWrites_rememberAll`,
`Output.memory_is_lastWrites`.
-/
import ModelStubs.Proofs.Memory
import ModelStubs.Proofs.PathSpellings

namespace ModelStubs
namespace Output

open Disk (Path Component)

/-- What a sink may be asked for: all files of a listing, or one text at any path. -/
inductive SinkRequest
  | files (files : GeneratedFiles)
  | text (path : Path) (text : String)

/-- Asks the sink, and answers the paths that were written to. -/
def carryOut {m : Type → Type} [Monad m] (sink : Sink m) :
    SinkRequest → m (Except Failure (List Path))
  | .files files => writeFiles sink files
  | .text path text => do
    match ← sink.write path text with
    | .error e => return .error (.disk e)
    | .ok written => return .ok [written]

/-- The answers to requests, and the calls that they come to, for a sink that takes every call.
A listing with a key that has to be refused comes to no call. -/
inductive History : List SinkRequest → List (Except Failure (List Path)) → List Call → Prop
  | nil : History [] [] []
  | accepted {files : GeneratedFiles} {own : List Call} {rs as calls} :
      Calls files.entries own → History rs as calls →
      History (.files files :: rs) (.ok (own.map Prod.fst) :: as) (own ++ calls)
  | refused {files : GeneratedFiles} {key : String} {rs as calls} :
      key ∈ files.keys → Refused key → (∀ k ∈ files.keys, Refused k → key ≤ k) →
      History rs as calls →
      History (.files files :: rs) (.error (.invalidOutputPath key) :: as) calls
  | text {path : Path} {text : String} {rs as calls} : History rs as calls →
      History (.text path text :: rs) (.ok [path] :: as) ((path, text) :: calls)

/-- The texts that a memory holds, each behind its path. -/
def contents (files : MemoryFiles) : List (Path × String) := files.entries.map Prod.snd

/-- The path is spelled as in the first call to it. -/
def FirstSpelling (calls : List Call) (path : Path) : Prop :=
  ∃ before text after, calls = before ++ (path, text) :: after ∧
    ∀ c ∈ before, c.1.components ≠ path.components

/-- The text is that of the last call to the path. -/
def LatestText (calls : List Call) (path : Path) (text : String) : Prop :=
  ∃ before spelled after, calls = before ++ (spelled, text) :: after ∧
    spelled.components = path.components ∧ ∀ c ∈ after, c.1.components ≠ path.components

/-- The memory is the map of the last texts that the calls gave to their paths. -/
structure LastWrites (calls : List Call) (files : MemoryFiles) : Prop where
  /-- It holds the last text of each path, spelled as in the first call, and nothing else. -/
  held_iff : ∀ path text, (path, text) ∈ contents files ↔
    FirstSpelling calls path ∧ LatestText calls path text
  /-- Every path that was called has one entry. -/
  one : ∀ c ∈ calls, ∃! e, e ∈ contents files ∧ e.1.components = c.1.components
  /-- Any spelling of a path finds the entry. -/
  found_iff : ∀ (path spelled : Path) (text : String),
    files.get? path.components = some (spelled, text) ↔
      (spelled, text) ∈ contents files ∧ spelled.components = path.components
  /-- Paths come in order, and none twice. -/
  increasing : (contents files).Pairwise fun a b => a.1.Before b.1

/-! ### Requests -/

/-- Requests are carried out one after the other. -/
theorem mapM_carryOut_cons {σ : Type} {sink : Sink (StateM σ)} {r : SinkRequest}
    {rs : List SinkRequest} {x y z : σ} {a : Except Failure (List Path)}
    {as : List (Except Failure (List Path))} (h : (carryOut sink r).run x = (a, y))
    (hs : (rs.mapM (carryOut sink)).run y = (as, z)) :
    ((r :: rs).mapM (carryOut sink)).run x = (a :: as, z) := by
  rw [List.mapM_cons, StateT.run_bind, h]
  show ((rs.mapM (carryOut sink)) >>= _).run y = _
  rw [StateT.run_bind, hs]
  rfl

/-- A listing whose keys are all accepted leaves what its calls leave. -/
theorem carryOut_of_calls {files : GeneratedFiles} {own : List Call}
    (h : Calls files.entries own) (memory : MemoryFiles) :
    (carryOut memorySink (.files files)).run memory =
      (.ok (own.map Prod.fst), rememberAll memory own) := by
  have hresolved := resolved_eq_ok_iff.mpr h
  show (writeFiles memorySink files).run memory = _
  rw [writeFiles_of_resolved hresolved, writeAll_of_succeeds (memorySink_succeeds own memory)]

theorem rememberAll_append_calls (files : MemoryFiles) (own calls : List Call) :
    rememberAll files (own ++ calls) = rememberAll (rememberAll files own) calls :=
  List.foldl_append

/-- Requests to a memory come to calls, and leave what the calls leave. -/
theorem mapM_carryOut : ∀ (rs : List SinkRequest) (memory : MemoryFiles),
    ∃ as calls, (rs.mapM (carryOut memorySink)).run memory = (as, rememberAll memory calls) ∧
      History rs as calls
  | [], memory => ⟨[], [], rfl, .nil⟩
  | .text path text :: rs, memory => by
    obtain ⟨as, calls, hrun, hhistory⟩ := mapM_carryOut rs (remember memory path text)
    exact ⟨.ok [path] :: as, (path, text) :: calls, mapM_carryOut_cons rfl hrun, .text hhistory⟩
  | .files files :: rs, memory => by
    cases hr : resolved files.entries with
    | ok own =>
      have hown := resolved_eq_ok_iff.mp hr
      obtain ⟨as, calls, hrun, hhistory⟩ := mapM_carryOut rs (rememberAll memory own)
      rw [← rememberAll_append_calls] at hrun
      exact ⟨_, _, mapM_carryOut_cons (carryOut_of_calls hown memory) hrun, .accepted hown hhistory⟩
    | error f =>
      obtain ⟨before, key, text, after, he, hkey, rfl, hb⟩ := resolved_eq_error hr
      have hm : key ∈ files.keys := by simp [Listing.keys, he]
      obtain ⟨as, calls, hrun, hhistory⟩ := mapM_carryOut rs memory
      exact ⟨_, _, mapM_carryOut_cons (writeFiles_of_error hr memory) hrun,
        .refused hm hkey (least_refused he hb) hhistory⟩

/-! ### What stands under a path -/

/-- The calls to a path. -/
def callsTo (cs : List Component) (calls : List Call) : List Call :=
  calls.filter fun c => decide (c.1.components = cs)

theorem callsTo_append_self (calls : List Call) (c : Call) :
    callsTo c.1.components (calls ++ [c]) = callsTo c.1.components calls ++ [c] := by
  simp [callsTo]

theorem callsTo_append_of_ne {cs : List Component} (calls : List Call) {c : Call}
    (h : c.1.components ≠ cs) : callsTo cs (calls ++ [c]) = callsTo cs calls := by
  simp [callsTo, h]

/-- Under a path stands the text of the last call to it, spelled as in the first. -/
theorem get?_rememberAll_eq (calls : List Call) (cs : List Component) :
    (rememberAll ∅ calls).get? cs = (callsTo cs calls).head?.bind fun first =>
      (callsTo cs calls).getLast?.map fun last => (first.1, last.2) := by
  induction calls using List.reverseRecOn with
  | nil => rfl
  | append_singleton calls c ih =>
    rw [rememberAll_append, get?_remember]
    by_cases hc : cs = c.1.components
    · rw [if_pos hc, ← hc, ih, hc, callsTo_append_self]
      cases hown : callsTo c.1.components calls with
      | nil => rfl
      | cons first own => simp [List.getLast?_cons]
    · rw [if_neg hc, ih, callsTo_append_of_ne calls (Ne.symm hc)]

theorem head?_callsTo_iff {calls : List Call} {path : Path} :
    (∃ text, (callsTo path.components calls).head? = some (path, text)) ↔
      FirstSpelling calls path := by
  simp only [callsTo, List.head?_filter, List.find?_eq_some_iff_append]
  constructor
  · rintro ⟨text, -, before, after, hcalls, hbefore⟩
    exact ⟨before, text, after, hcalls, fun c hc => by simpa using hbefore c hc⟩
  · rintro ⟨before, text, after, hcalls, hbefore⟩
    exact ⟨text, by simp, before, after, hcalls, fun c hc => by simpa using hbefore c hc⟩

theorem getLast?_callsTo_iff {calls : List Call} {path : Path} {text : String} :
    (∃ spelled, (callsTo path.components calls).getLast? = some (spelled, text)) ↔
      LatestText calls path text := by
  -- the last of the calls is the first of those in reverse
  simp only [callsTo, ← List.head?_reverse, ← List.filter_reverse, List.head?_filter,
    List.find?_eq_some_iff_append]
  constructor
  · rintro ⟨spelled, hspelled, after, before, hcalls, hafter⟩
    refine ⟨before.reverse, spelled, after.reverse, ?_, by simpa using hspelled, fun c hc => ?_⟩
    · rw [← List.reverse_inj, hcalls]
      simp
    · simpa using hafter c (List.mem_reverse.mp hc)
  · rintro ⟨before, spelled, after, hcalls, hspelled, hafter⟩
    refine ⟨spelled, by simpa using hspelled, after.reverse, before.reverse, ?_, fun c hc => ?_⟩
    · rw [hcalls]
      simp
    · simpa using hafter c (List.mem_reverse.mp hc)

/-- Under components stands the text of the last call to them, behind a path that has these
components and is spelled as in the first call. -/
theorem found_rememberAll_iff {calls : List Call} {cs : List Component} {path : Path}
    {text : String} : (rememberAll ∅ calls).get? cs = some (path, text) ↔
      path.components = cs ∧ FirstSpelling calls path ∧ LatestText calls path text := by
  rw [get?_rememberAll_eq, ← head?_callsTo_iff, ← getLast?_callsTo_iff]
  constructor
  · intro h
    rw [Option.bind_eq_some_iff] at h
    obtain ⟨⟨first, t⟩, hfirst, hmap⟩ := h
    rw [Option.map_eq_some_iff] at hmap
    obtain ⟨⟨last, s⟩, hlast, he⟩ := hmap
    cases he
    have hcomponents : first.components = cs := by
      simpa using (List.mem_filter.mp (List.mem_of_head? hfirst)).2
    rw [hcomponents]
    exact ⟨rfl, ⟨t, hfirst⟩, ⟨last, hlast⟩⟩
  · rintro ⟨rfl, ⟨t, hfirst⟩, ⟨last, hlast⟩⟩
    rw [hfirst, hlast]
    rfl

/-! ### What the memory holds -/

/-- An entry stands under the components of its path. -/
theorem components_of_mem_rememberAll {calls : List Call} {e : List Component × Path × String}
    (h : e ∈ (rememberAll ∅ calls).entries) : e.1 = e.2.1.components := by
  obtain ⟨cs, path, text⟩ := e
  exact (found_rememberAll_iff.mp (Listing.get?_eq_some_iff.mpr h)).1.symm

theorem mem_contents_rememberAll {calls : List Call} {path : Path} {text : String} :
    (path, text) ∈ contents (rememberAll ∅ calls) ↔
      FirstSpelling calls path ∧ LatestText calls path text := by
  have hfound : (rememberAll ∅ calls).get? path.components = some (path, text) ↔
      FirstSpelling calls path ∧ LatestText calls path text := by
    rw [found_rememberAll_iff]
    simp
  rw [← hfound, Listing.get?_eq_some_iff, contents, List.mem_map]
  constructor
  · rintro ⟨⟨cs, _⟩, hm, rfl⟩
    have hcs : cs = path.components := components_of_mem_rememberAll hm
    rwa [hcs] at hm
  · exact fun hm => ⟨_, hm, rfl⟩

/-- The first call to a path spells it, and the last one gives its text. -/
theorem exists_held {calls : List Call} {c : Call} (h : c ∈ calls) :
    ∃ path text, path.components = c.1.components ∧
      (path, text) ∈ contents (rememberAll ∅ calls) := by
  have hkey : c.1.components ∈ (rememberAll ∅ calls).keys := mem_keys_rememberAll.mpr ⟨c, h, rfl⟩
  obtain ⟨⟨path, text⟩, hget⟩ := Listing.mem_keys_iff.mp hkey
  obtain ⟨hcomponents, hheld⟩ := found_rememberAll_iff.mp hget
  exact ⟨path, text, hcomponents, mem_contents_rememberAll.mpr hheld⟩

/-- **The last writes are what is held.** -/
theorem lastWrites_rememberAll (calls : List Call) : LastWrites calls (rememberAll ∅ calls) where
  held_iff _ _ := mem_contents_rememberAll
  one := by
    intro c hc
    obtain ⟨path, text, hcomponents, hheld⟩ := exists_held hc
    refine ⟨(path, text), ⟨hheld, hcomponents⟩, ?_⟩
    rintro ⟨path', text'⟩ ⟨hheld', hcomponents'⟩
    -- both are found under the components of the call
    have hget := found_rememberAll_iff.mpr ⟨hcomponents, mem_contents_rememberAll.mp hheld⟩
    have hget' := found_rememberAll_iff.mpr ⟨hcomponents', mem_contents_rememberAll.mp hheld'⟩
    exact Option.some.inj (hget'.symm.trans hget)
  found_iff path spelled text := by
    rw [found_rememberAll_iff, mem_contents_rememberAll, and_comm]
  increasing := by
    rw [contents, List.pairwise_map]
    refine (rememberAll ∅ calls).sorted.imp_of_mem fun {a b} ha hb hlt => ?_
    rw [components_of_mem_rememberAll ha, components_of_mem_rememberAll hb] at hlt
    exact Path.before_of_compare hlt

/-- **A memory sink is a map of last writes.** Whatever a new memory sink is asked for, listings
with refused keys and texts at any paths included, it holds afterwards one text for each path
that was written to: the last one, behind the path as it was spelled first, and nothing else, in
the order of the components of the paths. Which paths are the same is settled by their
components, that is, up to slashes in a row, a `.` inside and a slash at the end. -/
theorem memory_is_lastWrites (requests : List SinkRequest) :
    (∃ answers calls memory,
      (requests.mapM (carryOut memorySink)).run ∅ = (answers, memory) ∧
      History requests answers calls ∧ LastWrites calls memory) ∧
    ∀ p q : Path, p.components = q.components ↔ p.Respelled q := by
  refine ⟨?_, fun _ _ => Path.respelled_iff.symm⟩
  obtain ⟨answers, calls, hrun, hhistory⟩ := mapM_carryOut requests ∅
  exact ⟨answers, calls, rememberAll ∅ calls, hrun, hhistory, lastWrites_rememberAll calls⟩

/-- A path keeps its first spelling when a key leads to it later, a listing with a key that leads
outside is not written at all, and `a/b` comes before `a-b`. -/
example : contents (([.text ⟨"a-b"⟩ "one", .text ⟨"a//b/"⟩ "two",
      .files (Listing.ofList [("c", "three"), ("../c", "four")]),
      .files (Listing.ofList [("a/b", "five")])].mapM (carryOut memorySink)).run ∅).2 =
    [(⟨"a//b/"⟩, "five"), (⟨"a-b"⟩, "one")] := rfl

end Output
end ModelStubs
