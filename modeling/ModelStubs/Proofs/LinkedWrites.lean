/-
# Writes through links

A path that is written to may lead to its file over links, and the last of them may
lead to a place where nothing is yet. In any tree the write is one change at one place
where nothing or a file stood, and afterwards the path leads to that place: the links
on the way are not touched, and following them takes no more links than the search for
the place did.

Key theorems: `Disk.FileTree.fileTarget_step`, `Disk.FileTree.leads_of_fileTarget`,
`Disk.FileTree.put_of_written`, `Disk.FileTree.put_of_written_new`,
`Disk.FileTree.stored_of_written`.
-/
import ModelStubs.Proofs.Trees

namespace ModelStubs
namespace Disk
namespace FileTree

variable {t u : FileTree} {links hops : Nat} {base place : Names} {r : Route}

/-- One step of the search for the place of a file: all names but the last lead to a
directory, and under the last name is either the place itself or a link to go on from. -/
theorem fileTarget_step (h : t.fileTarget links base r (hops + 1) = .ok place) :
    ∃ dir last rest, r.steps = r.names.dropLast ++ [last] ∧
      t.Leads links base r.names.dropLast rest dir ∧ t.Enters dir last ∧
      (place = dir ++ [last] ∧ (t.get? place = none ∨ ∃ c, t.HasFile place c) ∨
        ∃ target left, rest = left + 1 ∧ t.get? (dir ++ [last]) = some (.link target) ∧
          t.fileTarget left (startOf dir target) (Route.of target) hops = .ok place) := by
  unfold fileTarget at h
  split at h
  · cases h
  next last hlast =>
  split at h
  · cases h
  next dir last' rest hp =>
  obtain ⟨hl, hd, rfl⟩ := followParent_eq_ok hp
  split at h
  · cases h
  next hspecial =>
  obtain ⟨h1, h2, hslash⟩ : last' ≠ "." ∧ last' ≠ ".." ∧ r.slash = false := by
    simpa using hspecial
  have hsteps : r.steps = r.names.dropLast ++ [last'] := by
    rw [Route.steps, hslash, if_neg (by decide), ← getLast?_eq_some hlast]
  split at h
  · cases h
  next hlong =>
  have he : t.Enters dir last' := ⟨hd, h1, h2, Nat.le_of_not_lt hlong⟩
  refine ⟨dir, last', rest, hsteps, hl, he, ?_⟩
  split at h
  · next hnone => cases h; exact .inl ⟨rfl, .inl hnone⟩
  · next c hc => cases h; exact .inl ⟨rfl, .inr ⟨c, hc⟩⟩
  · cases h
  · next target hlink =>
    split at h
    · cases h
    · next left => exact .inr ⟨target, left, rfl, hlink, h⟩

/-- What is written to is below the top, and nothing or a file stands there. -/
theorem free_of_fileTarget (h : t.fileTarget links base r hops = .ok place) :
    place ≠ [] ∧ (t.get? place = none ∨ ∃ c, t.HasFile place c) := by
  induction hops generalizing links base r with
  | zero => cases h
  | succ hops ih =>
    obtain ⟨dir, last, rest, -, -, -, ⟨rfl, hfree⟩ | ⟨target, left, -, -, hnext⟩⟩ :=
      fileTarget_step h
    · exact ⟨by simp, hfree⟩
    · exact ih hnext

/-- In a tree that has grown from the first one and has something at the place of the file,
the route leads there. -/
theorem leads_of_fileTarget (h : t.fileTarget links base r hops = .ok place) (hg : Grows t u)
    {i : Item} (hi : u.get? place = some (.item i)) :
    ∃ rest, u.Leads links base r.steps rest place := by
  induction hops generalizing links base r with
  | zero => cases h
  | succ hops ih =>
    obtain ⟨dir, last, rest, hsteps, hl, he, hlast⟩ := fileTarget_step h
    have he' : u.Enters dir last := { he with directory := hg.directory _ he.directory }
    have hlu : u.Leads links base r.names.dropLast rest dir := hl.grows hg
    rw [hsteps]
    rcases hlast with ⟨rfl, -⟩ | ⟨target, left, rfl, hlink, hnext⟩
    · exact ⟨rest, hlu.append (.item he' hi .done)⟩
    · obtain ⟨rest', hl'⟩ := ih hnext
      refine ⟨rest', hlu.append (.link he' ((hg.link _ _).mpr hlink) ?_)⟩
      rw [List.append_nil]
      exact hl'

/-- The path of a write leads to its place as soon as something stands there. -/
theorem resolve_of_fileTarget {p : Path} (hr : routeOf p = .ok r)
    (h : t.fileTarget linkLimit [] r hops = .ok place) (hg : Grows t u) {i : Item}
    (hi : u.get? place = some (.item i)) : u.resolve p = .ok place := by
  obtain ⟨rest, hl⟩ := leads_of_fileTarget h hg hi
  exact resolve_eq_ok_iff.mpr ⟨r, rest, hr, hl⟩

/-- A write that succeeds puts the text at one place, where nothing or a file stood. If a
file stood there, the path led to it. -/
theorem put_of_written {p : Path} {s : String} (h : t.writeText p s = (.ok (), u)) :
    ∃ place, place ≠ [] ∧ u = t.put place (.item (.file (.text s))) ∧ u.resolve p = .ok place ∧
      (t.get? place = none ∨ ∃ c, t.HasFile place c ∧ t.resolve p = .ok place) := by
  unfold writeText at h
  split at h
  · cases h
  next r hr =>
  split at h
  · cases h
  next place hplace =>
  cases h
  obtain ⟨hne, hfree⟩ := free_of_fileTarget hplace
  have hself := get?_put_self hne (.item (.file (.text s))) (t := t)
  refine ⟨place, hne, rfl, resolve_of_fileTarget hr hplace (grows_put hne hfree) hself, ?_⟩
  rcases hfree with hnone | ⟨c, hc⟩
  · exact .inl hnone
  · exact .inr ⟨c, hc, resolve_of_fileTarget hr hplace (.refl t) hc⟩

/-- What is written to a path that leads to nothing is new. -/
theorem put_of_written_new {p : Path} {s : String} (hholds : t.holds p = false)
    (h : t.writeText p s = (.ok (), u)) :
    ∃ place, place ≠ [] ∧ t.get? place = none ∧ u = t.put place (.item (.file (.text s))) ∧
      u.resolve p = .ok place := by
  obtain ⟨place, hne, hu, hresolve, hnone | ⟨c, hc, hthere⟩⟩ := put_of_written h
  · exact ⟨place, hne, hnone, hu, hresolve⟩
  · have htrue := holds_iff.mpr ⟨place, _, hthere, hc⟩
    rw [hholds] at htrue
    cases htrue

/-- **Writes through links.** In any tree a text that was written is found where it was
written to, and no other file is new or changed. -/
theorem stored_of_written {p : Path} {s : String} (h : t.writeText p s = (.ok (), u)) :
    ∃ place, Stored t u p s place := by
  obtain ⟨place, hne, rfl, hresolve, hfree⟩ := put_of_written h
  have hfree : t.get? place = none ∨ ∃ c, t.HasFile place c :=
    hfree.imp_right fun ⟨c, hc, _⟩ => ⟨c, hc⟩
  refine ⟨place, grows_put hne hfree, hresolve, get?_put_self hne _, fun q c hq => ?_⟩
  rw [HasFile, get?_put_of_ne hq]
  rfl

/-- A path leads to something as long as the tree only grows. -/
theorem Grows.holds (hg : Grows t u) {p : Path} (h : t.holds p = true) : u.holds p = true := by
  obtain ⟨place, i, hresolve, hi⟩ := holds_iff.mp h
  obtain ⟨i', hi'⟩ := hg.item hi
  exact holds_iff.mpr ⟨place, i', hg.resolve hresolve, hi'⟩

theorem Stored.holds {file : Path} {text : String} (h : Stored t u file text place) :
    u.holds file = true :=
  holds_iff.mpr ⟨place, _, h.resolve, h.text⟩

end FileTree
end Disk
end ModelStubs
