import Verve.Proofs.Lockstep
import Verve.Proofs.Frame

/-!
# Checking an item after its siblings

The items of a block share one frame, and each is checked in the store the items before it
left. Those items can leave little that a later one could read. In a tree the reader built no
item binds a name in the frame it is checked in (`Node.ListPlaced`). So the siblings leave
only frames of their own, which no lookup from the block's frame reaches, and the fresh
counter, which numbers the copies `T#k` of generics.

So an item checks alike after its siblings and alone, up to the numbers of the fresh copies
(`Check.item_checks_alike_after_siblings`). `Relabel.between st st1` renumbers the copies
made since `st` to those made since `st1`, and the check from `st1` gives what the check
from `st` gives, relabelled. Renumbering keeps how every type is displayed and how every
fault is reported, so neither the types shown for the items nor the block's first error
depend on the items before.

A block starts from a `Store.Settled` store: each frame's parent is among the frames, and
no name it binds is a copy made after its counter.
-/

namespace Verve

/-- A store a check can start from: its bindings counted and plain, each frame's parent among
the frames, and no bound name, nor any generic of a bound type, a copy made after the
counter. -/
structure Store.Settled (st : Store) : Prop where
  sound : st.scopes.Sound
  plain : st.scopes.Plain
  parent_lt : ∀ f ∈ st.scopes.frames, ∀ p ∈ f.parent, p < st.scopes.frames.size
  below : ∀ f ∈ st.scopes.frames, ∀ b ∈ f.binds,
    Placeholder.Below st.fresh b.1 ∧ ∀ x ∈ b.2.genericNames, Placeholder.Below st.fresh x

namespace Relabel

section Keeps

variable (L : Relabel)

/-- Renumbering a copy keeps the name it was declared with. -/
theorem declaredName_name (x : String) : Ty.declaredName (L.name x) = Ty.declaredName x :=
  Placeholder.declaredName_renumber _ _ x

theorem display_ty (t : Ty) : (L.ty t).display = t.display :=
  Ty.display_rename L.declaredName_name t

theorem name_fault (f : Fault) : (L.fault f).name = f.name := by
  cases f <;> rfl

theorem tip_fault (f : Fault) : (L.fault f).tip = f.tip := by
  cases f <;> simp [fault, Fault.tip, display_ty]

/-- **A relabelled fault is reported alike**: its name, its tip with every type displayed,
and its place in the text. -/
theorem report_located (e : Located) (file source : String) :
    (L.located e).report file source = e.report file source := by
  simp only [Located.report, located, tip_fault, name_fault]

end Keeps

/-- The relabelling from a store to one a run went on to: the frames opened since stand
between, and the copies made since are numbered on. -/
def between (st st1 : Store) : Relabel :=
  ⟨st.scopes.frames.size, st1.scopes.frames.size - st.scopes.frames.size, st.fresh,
    st1.fresh - st.fresh⟩

variable {st st1 : Store}

theorem frame_between_of_lt {i : Nat} (hi : i < st.scopes.frames.size) :
    (between st st1).frame i = i := by
  simp [frame, between, hi]

/-- A frame of a settled store is its own relabelling towards any later store. -/
theorem frameOf_between (h : st.Settled) {f : Frame} (hf : f ∈ st.scopes.frames) :
    (between st st1).frameOf f = f := by
  have hname : ∀ x, Placeholder.Below st.fresh x → (between st st1).name x = x :=
    fun x hx => Placeholder.renumber_of_below _ hx
  obtain ⟨parent, binds⟩ := f
  simp only [frameOf, Frame.mk.injEq]
  constructor
  · cases hp : parent with
    | none => rfl
    | some p => simp [frame_between_of_lt (h.parent_lt _ hf p hp)]
  · conv_rhs => rw [← List.map_id binds]
    refine List.map_congr_left fun b hb => ?_
    obtain ⟨hx, hg⟩ := h.below _ hf b hb
    rw [id, hname _ hx, ty, Ty.rename_eq_self _ fun x hx' => hname x (hg x hx')]

/-- A settled store is embedded in any store grown from it without a binding in its frames. -/
theorem embeds_between (h : st.Settled) (hg : st.scopes.Grows (fun _ _ => False) st1.scopes)
    (hs : st1.scopes.Sound) : (between st st1).Embeds st.scopes st1.scopes := by
  have hsize := hg.1
  refine ⟨Nat.le_refl _, by simp only [between]; omega, fun i => ?_, h.sound, hs⟩
  by_cases hi : i < st.scopes.frames.size
  · rw [frame_between_of_lt hi, hg.frame_eq (fun _ h => h) hi]
    obtain ⟨f, hf⟩ : ∃ f, st.scopes.frames[i]? = some f :=
      ⟨_, Array.getElem?_eq_getElem hi⟩
    rw [hf, Option.map_some, frameOf_between h (Array.mem_of_getElem? hf)]
  · -- frames past the old ones are past the new ones too, once shifted by the gap
    have hi' : st1.scopes.frames.size ≤ (between st st1).frame i := by
      simp only [frame, between, hi, ↓reduceIte]
      omega
    rw [Array.getElem?_eq_none hi', Array.getElem?_eq_none (by omega), Option.map_none]

theorem stores_between (h : st.Settled) (hg : st.scopes.Grows (fun _ _ => False) st1.scopes)
    (hs : st1.scopes.Sound) (hfresh : st.fresh ≤ st1.fresh) : (between st st1).Stores st st1 :=
  ⟨embeds_between h hg hs, by simp only [between]; omega, Nat.le_refl _, h.plain⟩

/-! From a store to itself nothing is relabelled. -/

theorem frame_between_self (i : Nat) : (between st st).frame i = i := by
  simp [frame, between]

theorem ty_between_self (t : Ty) : (between st st).ty t = t :=
  Ty.rename_eq_self t fun x _ => by simp [name, between, Placeholder.renumber_zero]

end Relabel

namespace Check

variable {σ : Setting} {st st1 : Store} {d scope : Nat} {last : Ty} {pre : List Node}

/-- **What an item's siblings leave.** Checking items that bind nothing in their frame, the
counter only grows, the bindings stay counted, and every frame that was there stays as it
was. -/
theorem siblings_leave (hσ : σ.builtins.Fixed) (h : st.Settled) (hlast : last.Plain)
    (hplaced : Node.ListPlaced pre) (hnamed : Node.ListNamed pre) {r : Ty × List Node}
    (hrun : (typeBlock d scope last pre).exec σ st = (.ok r, st1)) :
    st.fresh ≤ st1.fresh ∧ st1.scopes.Sound ∧
      st.scopes.Grows (fun _ _ => False) st1.scopes := by
  -- the siblings' check against itself, with nothing relabelled, keeps what `Stores` keeps
  have hsame := Relabel.sim_typeBlock (L := .between st st) d scope hlast pre hnamed
  rw [Relabel.frame_between_self, Relabel.ty_between_self] at hsame
  obtain ⟨hst1, -, -⟩ := hsame σ st st hσ
    (Relabel.stores_between h (Scopes.Grows.refl _) h.sound (Nat.le_refl _))
  rw [hrun] at hst1
  have hgrows : Spec (st.scopes.Grows (fun _ _ => False) ·.scopes) (typeBlock d scope last pre)
      (fun _ => True) :=
    typeBlock_grows d scope last pre (by
      rw [Node.listOwnBinds_of_placed pre hplaced]
      exact Scopes.Permits.nil scope)
  have hg := (hgrows σ st (Scopes.Grows.refl _)).1
  rw [hrun] at hg
  exact ⟨hst1.start_le, hst1.embeds.sound, hg⟩

/-- An item after its siblings gives what it gives alone, relabelled from the store before
them to the store after. -/
theorem typeOf_after_siblings (hσ : σ.builtins.Fixed) (h : st.Settled)
    (hscope : scope < st.scopes.frames.size) (hlast : last.Plain)
    (hplaced : Node.ListPlaced pre) (hnamed : Node.ListNamed pre) {r : Ty × List Node}
    (hrun : (typeBlock d scope last pre).exec σ st = (.ok r, st1)) {e : Node} (he : e.Named) :
    ((typeOf d scope .plain e).exec σ st1).1 =
      (Relabel.between st st1).except
        (fun r => ((Relabel.between st st1).ty r.1, (Relabel.between st st1).node r.2))
        ((typeOf d scope .plain e).exec σ st).1 := by
  obtain ⟨hfresh, hsound, hg⟩ := siblings_leave hσ h hlast hplaced hnamed hrun
  have hsim := Relabel.sim_typeOf (L := .between st st1) d scope .plain trivial e he
  rw [Relabel.frame_between_of_lt hscope] at hsim
  exact (hsim σ st st1 hσ (Relabel.stores_between h hg hsound hfresh)).2.1

/-- **An item of a block checks alike after its siblings and alone.** Let the items `pre`
before it check without a fault, from a settled store `st` to `st1`. Then the item's check
from `st1` gives what its check alone from `st` gives, with the copies of generics made since
`st` numbered on to those made since `st1`: the same type and annotated tree up to that
renumbering, or the same fault at the same place. What a programmer sees of it, the type as
displayed or the fault's report, is the same. -/
theorem item_checks_alike_after_siblings (hσ : σ.builtins.Fixed) (h : st.Settled)
    (hscope : scope < st.scopes.frames.size) (hlast : last.Plain)
    (hplaced : Node.ListPlaced pre) (hnamed : Node.ListNamed pre) {r : Ty × List Node}
    (hrun : (typeBlock d scope last pre).exec σ st = (.ok r, st1)) {e : Node} (he : e.Named) :
    let L := Relabel.between st st1
    let alone := ((typeOf d scope .plain e).exec σ st).1
    let after := ((typeOf d scope .plain e).exec σ st1).1
    after = L.except (fun r => (L.ty r.1, L.node r.2)) alone ∧
      ∀ file source, (after.map (·.1.display)).mapError (·.report file source) =
        (alone.map (·.1.display)).mapError (·.report file source) := by
  intro L alone after
  have hafter : after = L.except (fun r => (L.ty r.1, L.node r.2)) alone :=
    typeOf_after_siblings hσ h hscope hlast hplaced hnamed hrun he
  refine ⟨hafter, fun file source => ?_⟩
  rw [hafter]
  cases alone with
  | ok r => simp [Relabel.except, Except.map, Except.mapError, L.display_ty]
  | error e => simp [Relabel.except, Except.map, Except.mapError, L.report_located]

/-- The built-in types of a program that rebinds none of them. -/
def plainBuiltins : Builtins :=
  ⟨.basic "Int", .basic "Float", .basic "String", .basic "Void", .enum Decls.listRef⟩

/-- An empty list, which takes a fresh copy of the list's generic for its elements. -/
def emptyList : Node := .mk (.list []) ⟨0, 2⟩ none

/-- After an empty list, another empty list is a list of the next copy of the generic, and
the theorem applies: the store starts with one frame and no copy made. -/
theorem item_checks_alike_after_emptyList :
    ∃ r st1, (typeBlock 0 0 (.basic "Void") [emptyList]).exec
        ⟨default, plainBuiltins, 8, []⟩ ⟨.ofRoot [], 0⟩ = (.ok r, st1) ∧
      let L := Relabel.between ⟨.ofRoot [], 0⟩ st1
      ((typeOf 0 0 .plain emptyList).exec ⟨default, plainBuiltins, 8, []⟩ st1).1 =
        L.except (fun r => (L.ty r.1, L.node r.2))
          ((typeOf 0 0 .plain emptyList).exec ⟨default, plainBuiltins, 8, []⟩
            ⟨.ofRoot [], 0⟩).1 := by
  have hσ : plainBuiltins.Fixed := by
    simp [Builtins.Fixed, plainBuiltins, Ty.Plain, Ty.PlainName, Ty.genericNames, Decls.listRef]
  have hst : Store.Settled ⟨.ofRoot [], 0⟩ :=
    ⟨by simp [Scopes.Sound, Scopes.boundTypes, Scopes.ofRoot],
      by simp [Scopes.Plain, Scopes.boundTypes, Scopes.ofRoot],
      by simp [Scopes.ofRoot], by simp [Scopes.ofRoot]⟩
  have hok : ((typeBlock 0 0 (.basic "Void") [emptyList]).exec
      ⟨default, plainBuiltins, 8, []⟩ ⟨.ofRoot [], 0⟩).1.isOk = true := by
    decide +kernel
  generalize hrun : (typeBlock 0 0 (.basic "Void") [emptyList]).exec
      ⟨default, plainBuiltins, 8, []⟩ ⟨.ofRoot [], 0⟩ = res at hok ⊢
  obtain ⟨_ | r, st1⟩ := res
  · cases hok
  · exact ⟨r, st1, rfl, (item_checks_alike_after_siblings hσ hst (by simp [Scopes.ofRoot])
      (by simp [Ty.Plain, Ty.PlainName])
      (show Node.ListPlaced [emptyList] from ⟨trivial, trivial⟩)
      (show Node.ListNamed [emptyList] from ⟨trivial, trivial⟩) hrun
      (show emptyList.Named from trivial)).1⟩

end Check

end Verve
