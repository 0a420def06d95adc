/-
# Requests made of requests

The program is put together from single requests to the files: one after the other, the
next depending on the answer of the last. A property of requests that goes through
sequences (`Disk.Compositional`) holds of making directories if it holds of making one,
and of writing files if it holds of writing one. Frames, invariants and the like are such
properties, and are looked at for single requests only.

Key definitions: `Disk.Compositional`.
Key theorems: `Disk.Compositional.makeDirectories`, `Disk.Compositional.writeAll`.
-/
import ModelStubs.Output.Sink

namespace ModelStubs
namespace Disk

/-- A property of requests that holds of a sequence if it holds of its requests. -/
structure Compositional (P : {α : Type} → StateM FileTree α → Prop) : Prop where
  pure : ∀ {α : Type} (a : α), P (Pure.pure a : StateM FileTree α)
  bind : ∀ {α β : Type} {x : StateM FileTree α} {f : α → StateM FileTree β},
    P x → (∀ a, P (f a)) → P (x >>= f)

namespace Compositional

variable {P : {α : Type} → StateM FileTree α → Prop}

theorem unlessDirectory (h : Compositional P) {p : Path}
    (hp : P (Access.isDirectory (m := StateM FileTree) p)) (e : Error) :
    P (unlessDirectory (m := StateM FileTree) p e) := by
  unfold Disk.unlessDirectory
  split
  · refine h.bind hp fun b => ?_
    split
    · exact h.pure _
    · exact h.pure _
  · exact h.pure _

/-- Making directories asks for one directory after the other. -/
theorem makeDirectories (h : Compositional P) : ∀ {ps : List Path},
    (∀ p ∈ ps, P (Access.makeDirectory (m := StateM FileTree) p)) →
    (∀ p ∈ ps, P (Access.isDirectory (m := StateM FileTree) p)) →
    P (makeDirectories (m := StateM FileTree) ps)
  | [], _, _ => h.pure _
  | p :: above, hmake, hdir => by
    have hp := hmake p List.mem_cons_self
    have hd := hdir p List.mem_cons_self
    have ih : P (Disk.makeDirectories (m := StateM FileTree) above) :=
      makeDirectories h (fun q hq => hmake q (List.mem_cons_of_mem _ hq))
        fun q hq => hdir q (List.mem_cons_of_mem _ hq)
    unfold Disk.makeDirectories
    split
    · exact h.pure _
    · refine h.bind hp fun result => ?_
      split
      · exact h.pure _
      · refine h.bind ih fun result => ?_
        split
        · exact h.pure _
        · refine h.bind hp fun result => ?_
          split
          · exact h.pure _
          · exact h.unlessDirectory hd _
      · exact h.unlessDirectory hd _

/-- Writing texts asks the sink for one after the other. -/
theorem writeAll (h : Compositional P) {sink : Output.Sink (StateM FileTree)} :
    ∀ {calls : List (Path × String)}, (∀ c ∈ calls, P (sink.write c.1 c.2)) →
    P (Output.writeAll sink calls)
  | [], _ => h.pure _
  | c :: calls, hcalls => by
    have hfirst := hcalls c List.mem_cons_self
    have ih : P (Output.writeAll sink calls) :=
      writeAll h fun d hd => hcalls d (List.mem_cons_of_mem _ hd)
    unfold Output.writeAll
    refine h.bind hfirst fun result => ?_
    split
    · exact h.pure _
    · refine h.bind ih fun result => ?_
      split
      · exact h.pure _
      · exact h.pure _

end Compositional

end Disk
end ModelStubs
