import Verve.Proofs.ParamsKept
import Verve.Proofs.Siblings
import Verve.Proofs.AlphaRename

/-!
# What checking may take for granted of a program it reads

The theorems about checking are stated for any tree, table and store, under assumptions about
names: that no name in the tree carries the `#` of a copy (`Node.Named`), that the built-in
types are spelt without one (`Builtins.Fixed`), that the store a block starts from has its
frames' parents among its frames and no copy made after its counter (`Store.Settled`), and,
for swapping two generics, that the program never uses their names (`Placeholder.Apart`).
Reading discharges each of them for every program read from its source.

| assumption | discharged by |
|---|---|
| the tree is `Named` | `Program.written_of_source` |
| `Builtins.Fixed` | `Decls.Written.builtins_fixed` |
| `Store.Settled` where the root block starts | `Decls.Written.settled_root`, `Store.Settled.child` |
| the names of a swap stay apart | `Program.swap_apart_iff` |
-/

namespace Verve

namespace Decls

variable {d : Decls}

/-- **The built-in types of a read table are fixed**: plain, with plain generics. -/
theorem Written.builtins_fixed (h : d.Written) : (Builtins.ofDecls d).Fixed := fun t ht =>
  ⟨(h.builtins t ht).unmarked.plain, (h.builtins t ht).unmarked.generics⟩

/-- **The store a check starts from is settled.** Its one frame, the root, has no parent and
binds plain names to plain types whose generics are plain: nothing in it is a copy. -/
theorem Written.settled_root (h : d.Written) : Store.Settled ⟨Scopes.ofRoot d.env, 0⟩ where
  sound := Scopes.sound_ofRoot d.env
  plain t ht := by
    rw [Scopes.boundTypes_ofRoot] at ht
    obtain ⟨b, hb, rfl⟩ := List.mem_map.1 ht
    exact (h.env b hb).unmarked.plain
  parent_lt f hf p hp := by
    simp only [Scopes.ofRoot, List.mem_toArray, List.mem_singleton] at hf
    subst hf
    cases hp
  below f hf b hb := by
    simp only [Scopes.ofRoot, List.mem_toArray, List.mem_singleton] at hf
    subst hf
    exact ⟨Placeholder.below_of_not_mem (h.names b hb),
      fun x hx => Placeholder.below_of_not_mem ((h.env b hb).unmarked.generics x hx)⟩

end Decls

/-- **Opening a frame keeps a store settled**: the new frame binds nothing, and its parent is
one of the frames. -/
theorem Store.Settled.child {st : Store} (h : st.Settled) {i : Nat}
    (hi : i < st.scopes.frames.size) : Store.Settled ⟨(st.scopes.child i).1, st.fresh⟩ where
  sound := h.sound.child i
  plain := h.plain.child i
  parent_lt f hf p hp := by
    obtain ⟨⟨frames, bound⟩, fresh⟩ := st
    simp only [Scopes.child, Array.mem_push, Array.size_push] at hf ⊢
    rcases hf with hf | rfl
    · exact Nat.lt_succ_of_lt (h.parent_lt f hf p hp)
    · cases hp
      exact Nat.lt_succ_of_lt hi
  below f hf b hb := by
    obtain ⟨⟨frames, bound⟩, fresh⟩ := st
    simp only [Scopes.child, Array.mem_push] at hf
    rcases hf with hf | rfl
    · exact h.below f hf b hb
    · cases hb

/-- **The block at the root of a program read from its source starts settled.** Its built-in
types are fixed, and the store its items are checked in, the root frame with the child the
block opens, is settled. -/
theorem Program.root_block_settled {src : String} {toks : Array Token} {prog : Program}
    (hscan : Token.scan src = .ok toks) (hread : Parse.program toks = .ok prog) :
    (Builtins.ofDecls prog.decls).Fixed ∧
      Store.Settled ⟨((Scopes.ofRoot prog.decls.env).child 0).1, 0⟩ := by
  have hd := (Program.written_of_source hscan hread).2
  exact ⟨hd.builtins_fixed, hd.settled_root.child (by simp [Scopes.ofRoot])⟩

/-! ### Names a swap must keep apart -/

section Apart

variable {G G' : String}

/-- For a plain name, staying apart from two names is being neither. -/
theorem Placeholder.apart_iff_of_plain {x : String} (hx : Ty.PlainName x) :
    Placeholder.Apart G G' x ↔ x ≠ G ∧ x ≠ G' := by
  simp [Placeholder.Apart, hx]

/-- A name plainly named node reads no name of `G` or `G'` exactly when neither is among its
names. -/
theorem Node.Named.everyName_apart_iff {n : Node} (hn : n.Named) :
    n.EveryName (Placeholder.Apart G G') ↔ G ∉ n.names ∧ G' ∉ n.names := by
  have hplain := (Node.everyName_iff n).1 (Node.Named.everyName n hn)
  rw [Node.everyName_iff]
  constructor
  · intro h
    exact ⟨fun hG => (h G hG).2.1 rfl, fun hG' => (h G' hG').2.2 rfl⟩
  · intro h x hx
    refine (Placeholder.apart_iff_of_plain (hplain x hx)).2 ⟨?_, ?_⟩
    · rintro rfl
      exact h.1 hx
    · rintro rfl
      exact h.2 hx

/-- **For a program read from its source, a swap's names stay apart exactly when the program
never uses them.** The tree reads neither name, no root binding is named by either, and no
generic of a root binding's type is either, each exactly when the names are not among those
of the tree, of the root bindings, and of their types' generics. -/
theorem Program.swap_apart_iff {src : String} {toks : Array Token} {prog : Program}
    (hscan : Token.scan src = .ok toks) (hread : Parse.program toks = .ok prog) :
    (prog.body.EveryName (Placeholder.Apart G G') ↔ G ∉ prog.body.names ∧ G' ∉ prog.body.names) ∧
      (∀ b ∈ prog.decls.env, Placeholder.Apart G G' b.1 ↔ b.1 ≠ G ∧ b.1 ≠ G') ∧
      ∀ b ∈ prog.decls.env, ∀ x ∈ b.2.genericNames, Placeholder.Apart G G' x ↔ x ≠ G ∧ x ≠ G' := by
  obtain ⟨hbody, hd⟩ := Program.written_of_source hscan hread
  exact ⟨hbody.everyName_apart_iff, fun b hb => Placeholder.apart_iff_of_plain (hd.names b hb),
    fun b hb x hx => Placeholder.apart_iff_of_plain ((hd.env b hb).unmarked.generics x hx)⟩

end Apart

end Verve
