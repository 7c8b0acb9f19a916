import Verve.Ty.Basic

/-!
# Scopes

Checking opens scopes inside scopes. A scope binds names to types and falls back to the scope
it was opened in; a binding made in a scope later is seen by every scope opened inside it.
`Scopes` holds all the frames opened so far, numbered in the order they were opened: frame 0
is the root, and a frame's parent has a smaller number, so looking a name up walks down the
numbers and ends.

| operation | meaning |
| --- | --- |
| `get s i x` | the newest binding of `x` in frame `i` or the nearest frame it falls back to |
| `set s i x t` | binds `x` to `t` in frame `i` |
| `child s i` | opens a frame inside frame `i` |

A lookup reads only the binding of the name and the parent of each frame it passes, so scopes
that agree on these, up to a renaming of names, types and frames, look the name up alike
(`Scopes.get_map`).
-/

namespace Verve

/-- A frame: its parent frame, and its bindings, newest first. -/
structure Frame where
  parent : Option Nat
  binds : List (String × Ty)
  deriving Inhabited

/-- The frames opened so far, and how many bindings were ever made: no chain of bindings has
more links than that. -/
structure Scopes where
  frames : Array Frame
  bound : Nat
  deriving Inhabited

namespace Scopes

/-- Scopes with a root frame holding some bindings. -/
def ofRoot (binds : List (String × Ty)) : Scopes := ⟨#[⟨none, binds⟩], binds.length⟩

/-- The newest binding of a name seen from frame `i`. -/
def get (s : Scopes) (i : Nat) (x : String) : Option Ty :=
  match s.frames[i]? with
  | none => none
  | some f =>
    match f.binds.lookup x with
    | some t => some t
    | none =>
      match f.parent with
      | some p => if p < i then s.get p x else none
      | none => none
termination_by i

/-- Every name bound in frame `i` or a frame it falls back to. -/
def names (s : Scopes) (i : Nat) : List String :=
  match s.frames[i]? with
  | none => []
  | some f =>
    f.binds.map (·.1) ++
      match f.parent with
      | some p => if p < i then s.names p else []
      | none => []
termination_by i

/-- Binds a name in frame `i`. The frames are taken apart first, so that an array held once
is changed in place. -/
def set (s : Scopes) (i : Nat) (x : String) (t : Ty) : Scopes :=
  let ⟨frames, bound⟩ := s
  ⟨frames.modify i (fun f => { f with binds := (x, t) :: f.binds }), bound + 1⟩

/-- Opens a frame inside frame `i`; returns the scopes and the new frame's number. -/
def child (s : Scopes) (i : Nat) : Scopes × Nat :=
  let ⟨frames, bound⟩ := s
  let n := frames.size
  (⟨frames.push ⟨some i, []⟩, bound⟩, n)

/-- A frame that is not there binds nothing. -/
theorem get_of_size_le {s : Scopes} {i : Nat} (x : String) (h : s.frames.size ≤ i) :
    s.get i x = none := by
  rw [get, Array.getElem?_eq_none h]

theorem lookup_mem {l : List (String × Ty)} {x : String} {t : Ty} (h : l.lookup x = some t) :
    x ∈ l.map (·.1) := by
  induction l with
  | nil => simp at h
  | cons b l ih =>
    obtain ⟨y, u⟩ := b
    by_cases hxy : x = y
    · simp [hxy]
    · have : l.lookup x = some t := by
        simpa [List.lookup_cons, show (x == y) = false from by simpa using hxy] using h
      simp [ih this]

/-- A name that has a binding is among the names. -/
theorem mem_names_of_get {s : Scopes} {i : Nat} {x : String} {t : Ty} (h : s.get i x = some t) :
    x ∈ s.names i := by
  induction i using Nat.strongRecOn with
  | _ i ih =>
    rw [get] at h
    rw [names]
    cases hf : s.frames[i]? with
    | none => simp [hf] at h
    | some f =>
      simp only [hf] at h ⊢
      cases hl : f.binds.lookup x with
      | some t' => exact List.mem_append_left _ (lookup_mem hl)
      | none =>
        simp only [hl] at h
        cases hp : f.parent with
        | none => simp [hp] at h
        | some p =>
          simp only [hp] at h ⊢
          by_cases hpi : p < i
          · simp only [hpi, if_true] at h ⊢
            exact List.mem_append_right _ (ih p hpi h)
          · simp [hpi] at h

/-- A lookup reads, in each frame it passes, only the frame's binding of the name and its
parent. So let frame `φ j` of `t` bind `x'` as frame `j` of `s` binds `x`, up to `g`, with the
image of its parent, for every frame `j` below `k`, where `φ` keeps the order of frames: then
`x'` is looked up from `φ j` as `x` is from `j`, up to `g`. -/
theorem get_map {s t : Scopes} {x x' : String} (φ : Nat → Nat) (g : Ty → Ty)
    (hφ : ∀ p i, φ p < φ i ↔ p < i) {k : Nat}
    (h : ∀ j < k, t.frames[φ j]?.map (fun f => (f.binds.lookup x', f.parent)) =
      s.frames[j]?.map (fun f => ((f.binds.lookup x).map g, f.parent.map φ))) :
    ∀ j < k, t.get (φ j) x' = (s.get j x).map g := by
  intro j
  induction j using Nat.strongRecOn with
  | _ j ih =>
    intro hj
    have hjk := h j hj
    rw [get, get]
    cases hf : s.frames[j]? with
    | none =>
      rw [hf, Option.map_none, Option.map_eq_none_iff] at hjk
      simp only [hjk, Option.map_none]
    | some f =>
      rw [hf, Option.map_some, Option.map_eq_some_iff] at hjk
      obtain ⟨f', hf', hagree⟩ := hjk
      obtain ⟨hl, hp⟩ := Prod.mk.inj hagree
      simp only [hf', hl, hp]
      -- the same binding, else the image of the same parent, below `j` in both
      cases f.binds.lookup x with
      | some _ => rfl
      | none =>
        simp only [Option.map_none]
        cases f.parent with
        | none => rfl
        | some q =>
          simp only [Option.map_some, hφ]
          split
          · exact ih q ‹q < j› (by omega)
          · rfl

/-- Scopes whose frames below `k` agree on the binding of `x` and on their parents look `x` up
alike from each of those frames. -/
theorem get_congr {s s' : Scopes} {x : String} {k : Nat}
    (h : ∀ j < k, s'.frames[j]?.map (fun f => (f.binds.lookup x, f.parent)) =
      s.frames[j]?.map (fun f => (f.binds.lookup x, f.parent))) :
    ∀ j < k, s'.get j x = s.get j x := by
  intro j hj
  simpa using get_map id id (fun _ _ => Iff.rfl) (fun j hj => by simpa using h j hj) j hj

end Scopes

end Verve
