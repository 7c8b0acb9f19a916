import Verve.Proofs.Relabel

/-!
# Renaming generics in scopes and searches

A renaming `ρ` of names acts on the scopes of a check by renaming every bound name and every
generic inside a bound type (`Scopes.rename`); the frames and their parents stay where they
are. For an injective `ρ` every read and every write of the scopes commutes with it: the
renamed name is bound to the renamed type (`Scopes.get_rename`); binding, opening a frame and
committing bindings found by a search give the renamed scopes (`Scopes.set_rename`,
`Scopes.child_rename`, `Scopes.commit_rename`); and a renamed type simplifies to the renamed
simplification (`Scopes.simplify_rename`).

The searches of `View` read a view only through its lookups, the implementations of its
interfaces and, to follow interface parameters, the count of its bindings as fuel.
`View.LooksRenamed ρ v w` asks just that of `w` against `v`, and under it every search of `w`
is the search of `v` renamed (`View.LooksRenamed.solve`, `…assignable`). Both kinds of renamed
view are instances: scopes renamed by `ρ` keep their count (`View.Renamed.unify`,
`…accepts`), and relabelled scopes, both sound, give each chase enough fuel
(`Relabel.Views.unify`, `…accepts`).

A call of an interface method looks its implementation up under the method's name followed by
the name of a type, a symbol that a renaming of generics must leave alone. `Ty.Methods P` says
that `P` holds of the name of every method in a type. Checking brings in no method that the
scopes or the types it starts from do not hold: simplifying and searching keep `Methods P`
(`Scopes.Methods.simplify`, `View.unify_methods`).
-/

namespace Verve

/-- Bindings with their names and the generics of their types renamed. -/
def renameBinds (ρ : String → String) (bs : List (String × Ty)) : List (String × Ty) :=
  bs.map fun b => (ρ b.1, b.2.rename ρ)

/-- A frame with its bindings renamed; its parent stays. -/
def Frame.rename (ρ : String → String) (f : Frame) : Frame := ⟨f.parent, renameBinds ρ f.binds⟩

/-- Scopes with every frame renamed; the count of bindings stays. -/
def Scopes.rename (ρ : String → String) (s : Scopes) : Scopes :=
  ⟨s.frames.map (Frame.rename ρ), s.bound⟩

/-- An outcome with the bindings it holds with renamed. -/
def Outcome.rename (ρ : String → String) : Outcome → Outcome
  | .holds p => .holds (renameBinds ρ p)
  | .fails => .fails
  | .endless => .endless

/-- Where following interface parameters leads, renamed. -/
def Lead.rename (ρ : String → String) : Lead → Lead
  | .accept => .accept
  | .bind r => .bind (r.rename ρ)
  | .solve b => .solve (b.rename ρ)
  | .endless => .endless

namespace Ty

variable {ρ : String → String}

/-- A basic type is its own renaming. -/
@[simp] theorem rename_basic (n : String) : rename ρ (.basic n) = .basic n := rfl

/-- A generic is renamed by its name. -/
@[simp] theorem rename_generic (n : String) : rename ρ (.generic n) = .generic (ρ n) := rfl

/-- An interface type is renamed by its parameter. -/
@[simp] theorem rename_iface (r : IfaceRef) : rename ρ (.iface r) = .iface (r.rename ρ) := rfl

/-- An enum is renamed by its generics. -/
@[simp] theorem rename_enum (r : EnumRef) : rename ρ (.enum r) = .enum (r.rename ρ) := rfl

/-- A data type is its own renaming. -/
@[simp] theorem rename_data (r : DataRef) : rename ρ (.data r) = .data r := rfl

/-- An application is renamed part by part. -/
@[simp] theorem rename_app (h : Ty) (as : List Ty) :
    rename ρ (.app h as) = .app (rename ρ h) (as.map (rename ρ)) := by
  simp [rename]

/-- A function type is renamed part by part, keeping its name. -/
@[simp] theorem rename_fn (n : String) (ps : List Ty) (r : Ty) (gs : List String)
    (o : Option IfaceRef) :
    rename ρ (.fn n ps r gs o) =
      .fn n (ps.map (rename ρ)) (rename ρ r) (gs.map ρ) (o.map (IfaceRef.rename ρ)) := by
  simp [rename]

/-- A constructor type is renamed part by part, keeping its number and name. -/
@[simp] theorem rename_ctor (i : Nat) (n : String) (ps : List Ty) (r : Ty) (gs : List String) :
    rename ρ (.ctor i n ps r gs) = .ctor i n (ps.map (rename ρ)) (rename ρ r) (gs.map ρ) := by
  simp [rename]

/-- Renaming keeps each head: a type that is no generic stays no generic. -/
theorem rename_ne_generic {b : Ty} (hb : ∀ y, b ≠ .generic y) (y : String) :
    rename ρ b ≠ .generic y := by
  cases b with
  | generic n => exact absurd rfl (hb n)
  | _ => simp

/-- A type that is no interface renames to no interface. -/
theorem rename_ne_iface {b : Ty} (hb : ∀ r, b ≠ .iface r) (r : IfaceRef) : rename ρ b ≠ .iface r := by
  cases b with
  | iface r' => exact absurd rfl (hb r')
  | _ => simp

/-- Only a basic type renames to a basic type, itself. -/
theorem eq_basic_of_rename {b : Ty} {x : String} (h : rename ρ b = .basic x) : b = .basic x := by
  cases b with
  | basic y => exact h
  | _ => simp at h

/-- Only an application renames to an application. -/
theorem exists_app_of_rename {b hd : Ty} {as : List Ty} (h : rename ρ b = .app hd as) :
    ∃ hd' as', b = .app hd' as' := by
  cases b with
  | app hd' as' => exact ⟨hd', as', rfl⟩
  | _ => simp at h

/-- Only an enum renames to an enum. -/
theorem exists_enum_of_rename {b : Ty} {r : EnumRef} (h : rename ρ b = .enum r) :
    ∃ r', b = .enum r' := by
  cases b with
  | enum r' => exact ⟨r', rfl⟩
  | _ => simp at h

/-- Only a data type renames to a data type, itself. -/
theorem eq_data_of_rename {b : Ty} {r : DataRef} (h : rename ρ b = .data r) : b = .data r := by
  cases b with
  | data r' => exact h
  | _ => simp at h

mutual

/-- Renaming keeps the interfaces a type holds on to. -/
theorem ifaceIds_rename : (t : Ty) → (rename ρ t).ifaceIds = t.ifaceIds
  | .app h as => by rw [rename, ifaceIds, ifaceIds, ifaceIds_rename h, ifaceIdsList_rename as]
  | .fn _ ps r _ _ => by rw [rename, ifaceIds, ifaceIds, ifaceIdsList_rename ps, ifaceIds_rename r]
  | .ctor _ _ ps r _ => by
    rw [rename, ifaceIds, ifaceIds, ifaceIdsList_rename ps, ifaceIds_rename r]
  | .basic _ | .generic _ | .iface _ | .enum _ | .data _ => rfl

/-- Renaming keeps the interfaces a list of types holds on to. -/
theorem ifaceIdsList_rename : (ts : List Ty) → ifaceIdsList (renameList ρ ts) = ifaceIdsList ts
  | [] => rfl
  | t :: ts => by
    rw [renameList, ifaceIdsList, ifaceIdsList, ifaceIds_rename t, ifaceIdsList_rename ts]

end

/-- Only a function type of the same name renames to a function type. -/
theorem exists_fn_of_rename {b : Ty} {n : String} {ps : List Ty} {r : Ty} {gs : List String}
    {o : Option IfaceRef} (h : rename ρ b = .fn n ps r gs o) :
    ∃ ps' r' gs' o', b = .fn n ps' r' gs' o' := by
  cases b with
  | fn n' ps' r' gs' o' =>
    simp only [rename_fn, Ty.fn.injEq] at h
    exact ⟨ps', r', gs', o', by rw [h.1]⟩
  | _ => simp at h

end Ty

section Injective

variable {ρ : String → String} (hρ : Function.Injective ρ)
include hρ

/-- Looking the renamed name up among renamed bindings finds the renamed binding. -/
theorem lookup_renameBinds (p : List (String × Ty)) (x : String) :
    (renameBinds ρ p).lookup (ρ x) = (p.lookup x).map (Ty.rename ρ) :=
  lookup_map_of_injective hρ (Ty.rename ρ) p x

/-- The newest binding of each name, among renamed bindings, is the renamed newest binding. -/
theorem latestBindings_renameBinds (p : Found) :
    latestBindings (renameBinds ρ p) = renameBinds ρ (latestBindings p) :=
  latestBindings_map_of_injective hρ (Ty.rename ρ) p

end Injective

namespace Scopes

variable {ρ : String → String}

/-- Renaming keeps the count of bindings. -/
@[simp] theorem bound_rename (s : Scopes) : (s.rename ρ).bound = s.bound := rfl

/-- Renaming keeps the number of frames. -/
@[simp] theorem size_rename (s : Scopes) : (s.rename ρ).frames.size = s.frames.size :=
  Array.size_map

/-- A renamed frame is the frame renamed. -/
theorem frame_rename (s : Scopes) (i : Nat) :
    (s.rename ρ).frames[i]? = s.frames[i]?.map (Frame.rename ρ) :=
  Array.getElem?_map

/-- **A lookup of the renamed name finds the renamed binding.** The frames keep their parents,
and their bindings are renamed one to one. -/
theorem get_rename (hρ : Function.Injective ρ) (s : Scopes) (i : Nat) (x : String) :
    (s.rename ρ).get i (ρ x) = (s.get i x).map (Ty.rename ρ) := by
  refine get_map id (Ty.rename ρ) (fun _ _ => Iff.rfl) (k := i + 1) (fun j _ => ?_) i
    (Nat.lt_succ_self i)
  rw [id, frame_rename]
  cases s.frames[j]? with
  | none => rfl
  | some f => simp [Frame.rename, lookup_renameBinds hρ]

/-- **Binding commutes with renaming**: the renamed name is bound to the renamed type. -/
theorem set_rename (s : Scopes) (i : Nat) (x : String) (t : Ty) :
    (s.set i x t).rename ρ = (s.rename ρ).set i (ρ x) (t.rename ρ) := by
  obtain ⟨frames, bound⟩ := s
  simp only [set, rename, mk.injEq, and_true]
  refine Array.ext_getElem? fun j => ?_
  simp only [Array.getElem?_map, Array.getElem?_modify]
  split
  · simp only [Option.map_map]
    rfl
  · rfl

/-- Opening a frame commutes with renaming, and gives the same new frame. -/
theorem child_rename (s : Scopes) (i : Nat) :
    (s.rename ρ).child i = ((s.child i).1.rename ρ, (s.child i).2) := by
  obtain ⟨frames, bound⟩ := s
  simp [child, rename, Array.map_push, Frame.rename, renameBinds]

/-- Committing bindings found by a search commutes with a renaming one to one. -/
theorem commit_rename (hρ : Function.Injective ρ) (s : Scopes) (i : Nat) (p : Found) :
    (s.commit i p).rename ρ = (s.rename ρ).commit i (renameBinds ρ p) := by
  unfold commit
  rw [latestBindings_renameBinds hρ]
  induction latestBindings p generalizing s with
  | nil => rfl
  | cons b bs ih =>
    simp only [renameBinds, List.map_cons, List.foldl_cons] at ih ⊢
    rw [← set_rename]
    exact ih _

/-- A name bound in the scopes is bound, renamed, to the renamed type in the renamed scopes. -/
theorem get_rename_some (hρ : Function.Injective ρ) {s : Scopes} {i : Nat} {x : String} {b : Ty}
    (hb : s.get i x = some b) : (s.rename ρ).get i (ρ x) = some (b.rename ρ) := by
  rw [get_rename hρ, hb]
  rfl

/-- A name with no binding has none, renamed, in the renamed scopes. -/
theorem get_rename_none (hρ : Function.Injective ρ) {s : Scopes} {i : Nat} {x : String}
    (hb : s.get i x = none) : (s.rename ρ).get i (ρ x) = none := by
  rw [get_rename hρ, hb]
  rfl

/-- **Simplifying commutes with renaming.** Every name followed and every binding read is the
renamed one, and renaming keeps which bindings lead back to their own name. -/
theorem simplifyWith_rename (hρ : Function.Injective ρ) (s : Scopes) (i : Nat) (r : List String)
    (x : Ty) : (s.rename ρ).simplifyWith i (r.map ρ) (x.rename ρ) = (s.simplifyWith i r x).rename ρ := by
  have hc := contains_map_of_injective hρ
  fun_induction s.simplifyWith i r x with
  | case1 r n hr =>
    rw [Ty.rename_generic, simplifyWith_generic_of_contains _ _ (by rw [hc]; exact hr)]
  | case2 r n hr b hb hn =>
    rw [Ty.rename_generic, simplifyWith_generic_of_get _ _ (by rw [hc]; simpa using hr)
      (get_rename_some hρ hb), Ty.isGenericNamed_rename hρ, if_pos hn]
  | case3 r n hr b hb hn hst =>
    rw [Ty.rename_generic, simplifyWith_generic_of_get _ _ (by rw [hc]; simpa using hr)
      (get_rename_some hρ hb), Ty.isGenericNamed_rename hρ, if_neg hn, Ty.stable_rename, if_pos hst]
  | case4 r n hr b hb hn hst ih =>
    rw [Ty.rename_generic, simplifyWith_generic_of_get _ _ (by rw [hc]; simpa using hr)
      (get_rename_some hρ hb), Ty.isGenericNamed_rename hρ, if_neg hn, Ty.stable_rename,
      if_neg hst]
    exact ih
  | case5 r n hr hb =>
    rw [Ty.rename_generic,
      simplifyWith_generic_of_get_none _ _ (by rw [hc]; simpa using hr) (get_rename_none hρ hb)]
  | case6 r hd args ih ihs =>
    rw [Ty.rename_app, simplifyWith_app, ih, List.attach_map_val, Ty.rename_app, List.map_map,
      List.map_map]
    congr 1
    exact List.map_congr_left fun a ha => ihs a ha
  | case7 r ref hr =>
    rw [Ty.rename_iface, simplifyWith_iface_of_contains _ _
      (by rw [IfaceRef.generic_rename, hc]; exact hr)]
  | case8 r ref hr b hb hn =>
    rw [Ty.rename_iface, @simplifyWith_iface_of_get (s.rename ρ) i (r.map ρ) (b.rename ρ)
      (ref.rename ρ) (by rw [IfaceRef.generic_rename, hc]; simpa using hr) (get_rename_some hρ hb),
      ← Ty.rename_iface, Ty.isGeneric_rename, Ty.same_rename hρ, if_pos hn]
  | case9 r ref hr b hb hn hst =>
    rw [Ty.rename_iface, @simplifyWith_iface_of_get (s.rename ρ) i (r.map ρ) (b.rename ρ)
      (ref.rename ρ) (by rw [IfaceRef.generic_rename, hc]; simpa using hr) (get_rename_some hρ hb),
      ← Ty.rename_iface, Ty.isGeneric_rename, Ty.same_rename hρ, if_neg hn, Ty.stable_rename,
      if_pos hst]
  | case10 r ref hr b hb hn hst ih =>
    rw [Ty.rename_iface, @simplifyWith_iface_of_get (s.rename ρ) i (r.map ρ) (b.rename ρ)
      (ref.rename ρ) (by rw [IfaceRef.generic_rename, hc]; simpa using hr) (get_rename_some hρ hb),
      ← Ty.rename_iface, Ty.isGeneric_rename, Ty.same_rename hρ, if_neg hn, Ty.stable_rename,
      if_neg hst]
    exact ih
  | case11 r ref hr hb =>
    rw [Ty.rename_iface, @simplifyWith_iface_of_get_none (s.rename ρ) i (r.map ρ)
      (ref.rename ρ) (by rw [IfaceRef.generic_rename, hc]; simpa using hr) (get_rename_none hρ hb)]
  | case12 r x hg ha hi =>
    refine simplifyWith_other _ _ (Ty.rename_ne_generic hg) (fun hd as he => ?_)
      (Ty.rename_ne_iface hi)
    obtain ⟨hd', as', rfl⟩ := Ty.exists_app_of_rename he
    exact ha hd' as' rfl

/-- **Simplifying commutes with a renaming one to one.** -/
theorem simplify_rename (hρ : Function.Injective ρ) (s : Scopes) (i : Nat) (x : Ty) :
    (s.rename ρ).simplify i (x.rename ρ) = (s.simplify i x).rename ρ := by
  rw [simplify_eq_simplifyWith, simplify_eq_simplifyWith]
  exact simplifyWith_rename hρ s i [] x

end Scopes

namespace View

variable {ρ : String → String}

/-- **The view `w` is the view `v` renamed by `ρ`:** renamed scopes, seen from the same frame,
with the same interfaces and implementations. -/
structure Renamed (ρ : String → String) (v w : View) : Prop where
  scopes_eq : w.scopes = v.scopes.rename ρ
  frame_eq : w.frame = v.frame
  ifaces_eq : w.decls.ifaces = v.decls.ifaces

namespace Renamed

variable {v w : View}

/-- A renamed name is looked up among the renamed bindings found, and then in the renamed scopes, as
the name is in the view renamed. -/
theorem look (hv : Renamed ρ v w) (hρ : Function.Injective ρ) (p : Found) (x : String) :
    w.look (renameBinds ρ p) (ρ x) = (v.look p x).map (Ty.rename ρ) := by
  unfold View.look
  rw [lookup_renameBinds hρ]
  cases hl : p.lookup x with
  | some t => rfl
  | none =>
    show w.scopes.get w.frame (ρ x) = (v.scopes.get v.frame x).map (Ty.rename ρ)
    rw [hv.scopes_eq, hv.frame_eq]
    exact Scopes.get_rename hρ _ _ x

/-- A renamed type has the implementations the type had. -/
theorem implements (hv : Renamed ρ v w) (id : Nat) (b : Ty) :
    w.decls.implements id (b.rename ρ) = v.decls.implements id b := by
  simp only [Decls.implements, Ty.dispatchKey_rename, Decls.hasImpl, Decls.iface?, hv.ifaces_eq]

end Renamed

/-- **The searches of `w` are those of `v`, renamed by `ρ`.** The renaming is one to one; a
renamed name is looked up in `w`, among the renamed bindings found so far, as it is in `v`,
renamed; a renamed type has the implementations it had; and both sides follow interface
parameters with enough fuel, either the same or fuel their counts of bindings bound
(`View.chase_of_enough`). That is all a search reads of a view, so every search answers alike,
renamed (`View.LooksRenamed.solve`). -/
structure LooksRenamed (ρ : String → String) (v w : View) : Prop where
  injective : Function.Injective ρ
  look : ∀ p x, w.look (renameBinds ρ p) (ρ x) = (v.look p x).map (Ty.rename ρ)
  implements : ∀ id b, w.decls.implements id (b.rename ρ) = v.decls.implements id b
  fuel : w.scopes.bound = v.scopes.bound ∨ (v.scopes.Sound ∧ w.scopes.Sound)

namespace LooksRenamed

variable {v w : View}

/-- **Resolving a generic commutes with renaming**, the name a chain ends at included. -/
theorem resolve (hv : LooksRenamed ρ v w) (p : Found) (x : String)
    (seen : List String) (h : seen.contains x = false) :
    ∀ h' : (seen.map ρ).contains (ρ x) = false,
      w.resolve (renameBinds ρ p) (ρ x) (seen.map ρ) h' =
        ((v.resolve p x seen h).map (Ty.rename ρ)).mapError ρ := by
  have hc := contains_map_of_injective hv.injective
  induction x, seen, h using View.resolve.induct v p with
  | case1 x seen h y hl hy =>
    intro h'
    have hl' : w.look (renameBinds ρ p) (ρ x) = some (.generic (ρ y)) := by
      rw [hv.look, hl]
      rfl
    have hy' : (ρ x :: seen.map ρ).contains (ρ y) = true := by
      rw [← List.map_cons, hc]
      exact hy
    rw [View.resolve_of_generic v p h hl, dif_pos hy, View.resolve_of_generic w _ h' hl',
      dif_pos hy']
    rfl
  | case2 x seen h y hl hy ih =>
    intro h'
    have hl' : w.look (renameBinds ρ p) (ρ x) = some (.generic (ρ y)) := by
      rw [hv.look, hl]
      rfl
    have hy' : ¬(ρ x :: seen.map ρ).contains (ρ y) = true := by
      rw [← List.map_cons, hc]
      exact hy
    rw [View.resolve_of_generic v p h hl, dif_neg hy, View.resolve_of_generic w _ h' hl',
      dif_neg hy']
    exact ih _
  | case3 x seen h t hng hl =>
    intro h'
    have hl' : w.look (renameBinds ρ p) (ρ x) = some (t.rename ρ) := by
      rw [hv.look, hl]
      rfl
    rw [View.resolve_of_other v p h hl hng,
      View.resolve_of_other w _ h' hl' (Ty.rename_ne_generic hng)]
    rfl
  | case4 x seen h hl =>
    intro h'
    have hl' : w.look (renameBinds ρ p) (ρ x) = none := by
      rw [hv.look, hl]
      rfl
    rw [View.resolve_of_none v p h hl, View.resolve_of_none w _ h' hl']
    rfl

/-- Resolving a renamed generic, with no name seen yet, gives the renamed type it resolves to, or
the renamed name where it stops. -/
theorem resolve_nil (hv : LooksRenamed ρ v w) (p : Found) (x : String) :
    w.resolve (renameBinds ρ p) (ρ x) [] rfl = ((v.resolve p x [] rfl).map (Ty.rename ρ)).mapError ρ :=
  hv.resolve p x [] rfl rfl

/-- Following interface parameters with the same fuel commutes with renaming. -/
theorem chase (hv : LooksRenamed ρ v w) (p : Found) (a : Ty) :
    ∀ (fuel : Nat) (seen : List Nat) (r : IfaceRef),
      w.chase (renameBinds ρ p) (a.rename ρ) fuel seen (r.rename ρ) =
        (v.chase p a fuel seen r).rename ρ
  | 0, _, _ => rfl
  | fuel + 1, seen, r => by
    have hs : (a.rename ρ).same (.iface (r.rename ρ)) = a.same (.iface r) := by
      rw [← Ty.rename_iface, Ty.same_rename hv.injective]
    rw [View.chase, View.chase, hs, IfaceRef.id_rename, IfaceRef.generic_rename,
      hv.resolve_nil p r.generic]
    split
    · rfl
    · split
      · rfl
      · cases hr : v.resolve p r.generic [] rfl with
        | error u => rfl
        | ok b =>
          cases b with
          | iface r' =>
            simp only [Except.map, Except.mapError, Ty.rename_iface, IfaceRef.id_rename]
            by_cases hid : (r'.id == r.id) = true
            · simp only [hid, ↓reduceIte]
              rfl
            · simp only [hid]
              exact chase hv p a fuel (r.id :: seen) r'
          | _ => rfl

/-- Following interface parameters with enough fuel on each side commutes with renaming:
each side answers as with the larger of the two fuels. -/
theorem chase_enough (hv : LooksRenamed ρ v w) (p : Found) (a : Ty) (r : IfaceRef) :
    w.chase (renameBinds ρ p) (a.rename ρ) ((renameBinds ρ p).length + w.scopes.bound + 2) []
        (r.rename ρ) =
      (v.chase p a (p.length + v.scopes.bound + 2) [] r).rename ρ := by
  rcases hv.fuel with hb | ⟨hs, hs'⟩
  · -- the same fuel: renaming keeps how many bindings were found and bound
    rw [renameBinds, List.length_map, hb]
    exact hv.chase p a _ [] r
  · rw [← @View.chase_of_enough w hs' (renameBinds ρ p) (a.rename ρ)
        (max (p.length + v.scopes.bound + 2) ((renameBinds ρ p).length + w.scopes.bound + 2))
        (Nat.le_max_right _ _) (r.rename ρ), hv.chase,
      View.chase_of_enough hs (Nat.le_max_left _ _)]

mutual

/-- **Matching commutes with renaming**, the bindings found included. -/
theorem solve (hv : LooksRenamed ρ v w) (p : Found) (e a : Ty) :
    w.solve (renameBinds ρ p) (e.rename ρ) (a.rename ρ) = (v.solve p e a).rename ρ := by
  fun_cases v.solve p e a
  case case1 n b hb =>
    rw [Ty.rename_generic, View.solve.eq_1, hv.resolve_nil p n, hb]
    exact solveBound hv p b a
  case case2 n u hu hn =>
    rw [Ty.rename_generic, View.solve.eq_1, hv.resolve_nil p n, hu]
    simp only [Except.map, Except.mapError, Ty.isGenericNamed_rename hv.injective, hn, ↓reduceIte]
    rfl
  case case3 n u hu hn =>
    rw [Ty.rename_generic, View.solve.eq_1, hv.resolve_nil p n, hu]
    simp only [Except.map, Except.mapError, Ty.isGenericNamed_rename hv.injective, hn]
    rfl
  case case4 r =>
    rw [Ty.rename_iface, View.solve.eq_2]
    exact solveIface hv p r a
  case case5 hg hi =>
    rw [View.solve.eq_3 _ _ _ _ (Ty.rename_ne_generic hg) (Ty.rename_ne_iface hi)]
    exact solveShape hv p e a
termination_by (sizeOf a, 3)
decreasing_by all_goals exact Prod.Lex.right _ (by decide)

/-- What `View.LooksRenamed.solve` says, for a generic bound to `b`. -/
theorem solveBound (hv : LooksRenamed ρ v w) (p : Found) (b a : Ty) :
    w.solveBound (renameBinds ρ p) (b.rename ρ) (a.rename ρ) = (v.solveBound p b a).rename ρ := by
  fun_cases v.solveBound p b a
  case case1 r =>
    rw [Ty.rename_iface, View.solveBound.eq_1]
    exact solveIface hv p r a
  case case2 hi =>
    rw [View.solveBound.eq_2 _ _ _ _ (Ty.rename_ne_iface hi)]
    exact solveShape hv p b a
termination_by (sizeOf a, 2)
decreasing_by all_goals exact Prod.Lex.right _ (by decide)

/-- What `View.LooksRenamed.solve` says, for an interface. -/
theorem solveIface (hv : LooksRenamed ρ v w) (p : Found) (r : IfaceRef) (a : Ty) :
    w.solveIface (renameBinds ρ p) (r.rename ρ) (a.rename ρ) = (v.solveIface p r a).rename ρ := by
  rw [View.solveIface.eq_1, View.solveIface.eq_1, hv.chase_enough p a r]
  cases v.chase p a (p.length + v.scopes.bound + 2) [] r with
  | accept => rfl
  | bind r' =>
    simp only [Lead.rename, IfaceRef.id_rename, hv.implements]
    by_cases hi : v.decls.implements r'.id a = true
    · simp only [hi, ↓reduceIte]
      rfl
    · simp only [hi]
      rfl
  | solve b => exact solveShape hv p b a
  | endless => rfl
termination_by (sizeOf a, 1)
decreasing_by all_goals exact Prod.Lex.right _ (by decide)

/-- What `View.LooksRenamed.solve` says, for two types matched by their shapes. -/
theorem solveShape (hv : LooksRenamed ρ v w) (p : Found) (e a : Ty) :
    w.solveShape (renameBinds ρ p) (e.rename ρ) (a.rename ρ) = (v.solveShape p e a).rename ρ := by
  fun_cases v.solveShape p e a
  case case1 name =>
    rw [Ty.rename_generic, View.solveShape.eq_1]
    rfl
  case case2 x y hxy =>
    rw [Ty.rename_basic, Ty.rename_basic, View.solveShape.eq_2, if_pos hxy]
    rfl
  case case3 x y hxy =>
    rw [Ty.rename_basic, Ty.rename_basic, View.solveShape.eq_2, if_neg hxy]
    rfl
  case case4 he es ha as hc =>
    rw [Ty.rename_app, Ty.rename_app, View.solveShape.eq_3, Ty.sameDecl_rename, List.length_map,
      List.length_map, if_pos hc]
    exact solveArgs hv p true es as
  case case5 he es ha as hc =>
    rw [Ty.rename_app, Ty.rename_app, View.solveShape.eq_3, Ty.sameDecl_rename, List.length_map,
      List.length_map, if_neg hc]
    rfl
  case case6 he args r hs =>
    rw [Ty.rename_app, Ty.rename_enum, View.solveShape.eq_4, ← Ty.rename_enum,
      Ty.same_rename hv.injective, if_pos hs]
    rfl
  case case7 he args r hs =>
    rw [Ty.rename_app, Ty.rename_enum, View.solveShape.eq_4, ← Ty.rename_enum,
      Ty.same_rename hv.injective, if_neg hs]
    rfl
  case case8 r ha args hs =>
    rw [Ty.rename_enum, Ty.rename_app, View.solveShape.eq_5, ← Ty.rename_enum,
      Ty.same_rename hv.injective, if_pos hs]
    rfl
  case case9 r ha args hs =>
    rw [Ty.rename_enum, Ty.rename_app, View.solveShape.eq_5, ← Ty.rename_enum,
      Ty.same_rename hv.injective, if_neg hs]
    rfl
  case case10 r r' hid =>
    rw [Ty.rename_enum, Ty.rename_enum, View.solveShape.eq_6, EnumRef.id_rename,
      EnumRef.id_rename, if_pos hid]
    rfl
  case case11 r r' hid =>
    rw [Ty.rename_enum, Ty.rename_enum, View.solveShape.eq_6, EnumRef.id_rename,
      EnumRef.id_rename, if_neg hid]
    rfl
  case case12 r r' hid =>
    rw [Ty.rename_data, Ty.rename_data, View.solveShape.eq_7, if_pos hid]
    rfl
  case case13 r r' hid =>
    rw [Ty.rename_data, Ty.rename_data, View.solveShape.eq_7, if_neg hid]
    rfl
  case case14 n ps r gs o n' ps' r' gs' o' hlen p' hargs =>
    rw [Ty.rename_fn, Ty.rename_fn, View.solveShape.eq_8, List.length_map, List.length_map,
      if_pos hlen, solveArgs hv p false ps ps', hargs]
    exact solve hv p' r r'
  case case15 n ps r gs o n' ps' r' gs' o' hlen hargs =>
    rw [Ty.rename_fn, Ty.rename_fn, View.solveShape.eq_8, List.length_map, List.length_map,
      if_pos hlen, solveArgs hv p false ps ps']
    cases ho : v.solveArgs p false ps ps' with
    | holds p' => exact absurd ho (hargs p')
    | fails => rfl
    | endless => rfl
  case case16 n ps r gs o n' ps' r' gs' o' hlen =>
    rw [Ty.rename_fn, Ty.rename_fn, View.solveShape.eq_8, List.length_map, List.length_map,
      if_neg hlen]
    rfl
  case case17 h1 h2 h3 h4 h5 h6 h7 h8 =>
    -- no pattern applies to the renamed types either, as renaming keeps each head
    rw [View.solveShape.eq_9 _ _ _ _ (Ty.rename_ne_generic h1)
      (fun x y he ha => h2 x y (Ty.eq_basic_of_rename he) (Ty.eq_basic_of_rename ha))
      (fun _ _ _ _ he ha => by
        obtain ⟨_, _, rfl⟩ := Ty.exists_app_of_rename he
        obtain ⟨_, _, rfl⟩ := Ty.exists_app_of_rename ha
        exact h3 _ _ _ _ rfl rfl)
      (fun _ _ _ he ha => by
        obtain ⟨_, _, rfl⟩ := Ty.exists_app_of_rename he
        obtain ⟨_, rfl⟩ := Ty.exists_enum_of_rename ha
        exact h4 _ _ _ rfl rfl)
      (fun _ _ _ he ha => by
        obtain ⟨_, rfl⟩ := Ty.exists_enum_of_rename he
        obtain ⟨_, _, rfl⟩ := Ty.exists_app_of_rename ha
        exact h5 _ _ _ rfl rfl)
      (fun _ _ he ha => by
        obtain ⟨_, rfl⟩ := Ty.exists_enum_of_rename he
        obtain ⟨_, rfl⟩ := Ty.exists_enum_of_rename ha
        exact h6 _ _ rfl rfl)
      (fun _ _ he ha => h7 _ _ (Ty.eq_data_of_rename he) (Ty.eq_data_of_rename ha))
      (fun _ _ _ _ _ _ _ _ _ _ he ha => by
        obtain ⟨_, _, _, _, rfl⟩ := Ty.exists_fn_of_rename he
        obtain ⟨_, _, _, _, rfl⟩ := Ty.exists_fn_of_rename ha
        exact h8 _ _ _ _ _ _ _ _ _ _ rfl rfl)]
    rfl
termination_by (sizeOf a, 0)
decreasing_by
  all_goals
    apply Prod.Lex.left
    subst_vars
    simp only [Ty.app.sizeOf_spec, Ty.fn.sizeOf_spec]
    omega

/-- What `View.LooksRenamed.solve` says, for lists of arguments. -/
theorem solveArgs (hv : LooksRenamed ρ v w) (p : Found) (sg : Bool) (es as : List Ty) :
    w.solveArgs (renameBinds ρ p) sg (es.map (Ty.rename ρ)) (as.map (Ty.rename ρ)) =
      (v.solveArgs p sg es as).rename ρ := by
  fun_cases v.solveArgs p sg es as
  case case1 e es a as hg =>
    rw [List.map_cons, List.map_cons, View.solveArgs.eq_1, Ty.isGeneric_rename, if_pos hg]
    exact solveArgs hv p sg es as
  case case2 e es a as hg p' hs =>
    rw [List.map_cons, List.map_cons, View.solveArgs.eq_1, Ty.isGeneric_rename, if_neg hg,
      solve hv p e a, hs]
    exact solveArgs hv p' sg es as
  case case3 e es a as hg hs =>
    rw [List.map_cons, List.map_cons, View.solveArgs.eq_1, Ty.isGeneric_rename, if_neg hg,
      solve hv p e a]
    cases ho : v.solve p e a with
    | holds p' => exact absurd ho (hs p')
    | fails => rfl
    | endless => rfl
  case case4 hne =>
    rw [View.solveArgs.eq_2 _ _ _ _ _ fun e' es' a' as' h1 h2 => ?_]
    · rfl
    obtain ⟨e0, es0, rfl, -, -⟩ := List.map_eq_cons_iff.1 h1
    obtain ⟨a0, as0, rfl, -, -⟩ := List.map_eq_cons_iff.1 h2
    exact hne e0 es0 a0 as0 rfl rfl
termination_by (sizeOf as, 0)
decreasing_by
  all_goals
    apply Prod.Lex.left
    subst_vars
    simp only [List.cons.sizeOf_spec]
    omega

end

/-- Whether a type is assignable to another is decided alike for the renamed types. -/
theorem assignable (hv : LooksRenamed ρ v w) (e a : Ty) :
    w.assignable (e.rename ρ) (a.rename ρ) = (v.assignable e a).rename ρ :=
  hv.solve [] e a

end LooksRenamed

namespace Renamed

variable {v w : View}

/-- Renamed scopes, seen from the same frame with the same interfaces, are searched as the
scopes they rename. -/
theorem looksRenamed (hv : Renamed ρ v w) (hρ : Function.Injective ρ) : LooksRenamed ρ v w :=
  ⟨hρ, hv.look hρ, hv.implements, .inl (by rw [hv.scopes_eq, Scopes.bound_rename])⟩

/-- **Unifying commutes with renaming**: the renamed outcome, and the renamed bindings committed
in the same frame. -/
theorem unify (hv : Renamed ρ v w) (hρ : Function.Injective ρ) (e a : Ty) :
    w.unify (e.rename ρ) (a.rename ρ) = ((v.unify e a).1.rename ρ, (v.unify e a).2.rename ρ) := by
  have hs : w.solve [] (e.rename ρ) (a.rename ρ) = (v.solve [] e a).rename ρ :=
    (hv.looksRenamed hρ).solve [] e a
  obtain ⟨vs, vf, vd⟩ := v
  obtain ⟨ws, wf, wd⟩ := w
  obtain ⟨he, hf, -⟩ := hv
  dsimp only at hf he
  subst he hf
  unfold View.unify
  rw [hs]
  cases View.solve ⟨vs, wf, vd⟩ [] e a with
  | holds p => exact Prod.ext rfl (Scopes.commit_rename hρ vs wf p).symm
  | fails => rfl
  | endless => rfl

/-- **Accepting commutes with renaming**: the same outcome renamed, and the renamed scopes. -/
theorem accepts (hv : Renamed ρ v w) (hρ : Function.Injective ρ) (e a : Ty) :
    w.accepts (e.rename ρ) (a.rename ρ) = ((v.accepts e a).1.rename ρ, (v.accepts e a).2.rename ρ) := by
  unfold View.accepts
  rw [(hv.looksRenamed hρ).assignable e a]
  cases v.assignable e a with
  | holds p => exact hv.unify hρ e a
  | fails => exact Prod.ext rfl hv.scopes_eq
  | endless => exact Prod.ext rfl hv.scopes_eq

end Renamed

end View

namespace Relabel

variable {L : Relabel}

/-- Relabelling an outcome renames its bindings by the relabelling of names. -/
theorem outcome_eq_rename (o : Outcome) : L.outcome o = o.rename L.name := by
  cases o <;> rfl

namespace Views

variable {v w : View}

/-- Relabelled scopes, seen from the relabelled frame with the same declarations, are searched
as the scopes they relabel. Both sides count their bindings, so each chase is given enough
fuel. -/
theorem looksRenamed (hv : L.Views v w) : View.LooksRenamed L.name v w :=
  ⟨L.name_injective, hv.look, fun id b => by rw [hv.decls_eq]; exact L.implements_ty v.decls id b,
    .inr ⟨hv.embeds.sound, hv.embeds.sound'⟩⟩

/-- Whether a type is assignable to another is decided alike for the relabelled types. -/
theorem assignable (hv : L.Views v w) (e a : Ty) :
    w.assignable (L.ty e) (L.ty a) = L.outcome (v.assignable e a) := by
  rw [outcome_eq_rename]
  exact hv.looksRenamed.assignable e a

/-- **Unifying commutes with relabelling**: the same outcome, and the bindings committed in the
relabelled frame. -/
theorem unify (hv : L.Views v w) (e a : Ty) :
    (w.unify (L.ty e) (L.ty a)).1 = L.outcome (v.unify e a).1 ∧
      L.Embeds (v.unify e a).2 (w.unify (L.ty e) (L.ty a)).2 := by
  have hs : w.solve [] (L.ty e) (L.ty a) = L.outcome (v.solve [] e a) := by
    rw [outcome_eq_rename]
    exact hv.looksRenamed.solve [] e a
  obtain ⟨vs, vf, vd⟩ := v
  obtain ⟨ws, wf, wd⟩ := w
  obtain ⟨he, hf, -⟩ := hv
  dsimp only at hf he
  subst hf
  unfold View.unify
  rw [hs]
  cases View.solve ⟨vs, vf, vd⟩ [] e a with
  | holds p => exact ⟨rfl, he.commit vf p⟩
  | fails => exact ⟨rfl, he⟩
  | endless => exact ⟨rfl, he⟩

/-- **Accepting commutes with relabelling**: the same outcome relabelled, and relabelled scopes. -/
theorem accepts (hv : L.Views v w) (e a : Ty) :
    (w.accepts (L.ty e) (L.ty a)).1 = L.outcome (v.accepts e a).1 ∧
      L.Embeds (v.accepts e a).2 (w.accepts (L.ty e) (L.ty a)).2 := by
  unfold View.accepts
  rw [hv.assignable e a]
  cases v.assignable e a with
  | holds p => exact hv.unify e a
  | fails => exact ⟨rfl, hv.embeds⟩
  | endless => exact ⟨rfl, hv.embeds⟩

end Views

end Relabel

/-! ### Methods

The symbol a call dispatches to is a method's name followed by the name of a type. A renaming
of generics keeps that symbol when it keeps every name that begins with a method's name; so it
is enough to know which methods can reach a call. -/

namespace Ty

mutual

/-- `P` holds of the name of every method in the type, inside applications, function types and
constructors: of every function type that an interface declares. -/
def Methods (P : String → Prop) : Ty → Prop
  | .app h as => Methods P h ∧ MethodsList P as
  | .fn n ps r _ o => (o.isSome → P n) ∧ MethodsList P ps ∧ Methods P r
  | .ctor _ _ ps r _ => MethodsList P ps ∧ Methods P r
  | _ => True

/-- `Methods` for every member of a list. -/
def MethodsList (P : String → Prop) : List Ty → Prop
  | [] => True
  | t :: ts => Methods P t ∧ MethodsList P ts

end

variable {P : String → Prop}

/-- A list of types holds only methods named by `P` exactly when each of its types does. -/
theorem methodsList_iff : (ts : List Ty) → MethodsList P ts ↔ ∀ t ∈ ts, Methods P t
  | [] => by simp [MethodsList]
  | t :: ts => by simp [MethodsList, methodsList_iff ts]

mutual

/-- A weaker condition on method names holds of a type whenever a stronger one does. -/
theorem Methods.mono {Q : String → Prop} (h : ∀ n, P n → Q n) :
    (t : Ty) → t.Methods P → t.Methods Q
  | .basic _, _ | .generic _, _ | .iface _, _ | .enum _, _ | .data _, _ => trivial
  | .app hd as, ht => ⟨Methods.mono h hd ht.1, MethodsList.mono h as ht.2⟩
  | .fn n ps r _ _, ht => ⟨fun ho => h n (ht.1 ho), MethodsList.mono h ps ht.2.1,
      Methods.mono h r ht.2.2⟩
  | .ctor _ _ ps r _, ht => ⟨MethodsList.mono h ps ht.1, Methods.mono h r ht.2⟩

/-- A weaker condition on method names holds of a list of types whenever a stronger one does. -/
theorem MethodsList.mono {Q : String → Prop} (h : ∀ n, P n → Q n) :
    (ts : List Ty) → MethodsList P ts → MethodsList Q ts
  | [], _ => trivial
  | t :: ts, hts => ⟨Methods.mono h t hts.1, MethodsList.mono h ts hts.2⟩

end

/-- The methods of a type are those of its parts, and a function type's own. -/
theorem methods_inherited (P : String → Prop) : Inherited (Methods P) where
  app _ as := and_congr Iff.rfl (methodsList_iff as)
  fn _ ps _ _ _ h := ⟨(methodsList_iff ps).1 h.2.1, h.2.2⟩

mutual

/-- The names of the methods a type holds: its function types that an interface owns, also
inside applications, function types and constructors. -/
def methodNames : Ty → List String
  | .app h as => methodNames h ++ methodNamesList as
  | .fn n ps r _ o => (if o.isSome then [n] else []) ++ methodNamesList ps ++ methodNames r
  | .ctor _ _ ps r _ => methodNamesList ps ++ methodNames r
  | _ => []

/-- `methodNames` of the members of a list, one after another. -/
def methodNamesList : List Ty → List String
  | [] => []
  | t :: ts => methodNames t ++ methodNamesList ts

end

mutual

/-- A condition holds of the methods of a type exactly when it holds of its `methodNames`. -/
theorem methods_iff_names : (t : Ty) → t.Methods P ↔ ∀ n ∈ t.methodNames, P n
  | .basic _ | .generic _ | .iface _ | .enum _ | .data _ => by simp [Methods, methodNames]
  | .app h as => by
    simp only [Methods, methodNames, methods_iff_names h, methodsList_iff_names as,
      List.forall_mem_append]
  | .fn n ps r _ o => by
    cases o with
    | none =>
      simp only [Methods, methodNames, Option.isSome_none, Bool.false_eq_true, ↓reduceIte,
        List.nil_append, List.forall_mem_append, methodsList_iff_names ps,
        methods_iff_names r, false_implies, true_and]
    | some _ =>
      simp only [Methods, methodNames, Option.isSome_some, ↓reduceIte, List.singleton_append,
        List.forall_mem_cons, List.forall_mem_append, methodsList_iff_names ps,
        methods_iff_names r, true_implies, and_assoc]
  | .ctor _ _ ps r _ => by
    simp only [Methods, methodNames, methodsList_iff_names ps, methods_iff_names r,
      List.forall_mem_append]

/-- A condition holds of the methods of a list of types exactly when it holds of their names. -/
theorem methodsList_iff_names : (ts : List Ty) → MethodsList P ts ↔ ∀ n ∈ methodNamesList ts, P n
  | [] => by simp [MethodsList, methodNamesList]
  | t :: ts => by
    simp only [MethodsList, methodNamesList, methods_iff_names t, methodsList_iff_names ts,
      List.forall_mem_append]

end

instance [DecidablePred P] (t : Ty) : Decidable (t.Methods P) :=
  decidable_of_iff _ (methods_iff_names t).symm

end Ty

namespace Scopes

/-- Every type bound in the scopes holds only methods named by `P`. -/
def Methods (P : String → Prop) (s : Scopes) : Prop := ∀ t ∈ s.boundTypes, t.Methods P

variable {P : String → Prop} {s : Scopes}

/-- A type looked up in scopes that hold only methods named by `P` holds only such methods. -/
theorem Methods.get (hs : s.Methods P) {i : Nat} {x : String} {t : Ty} (h : s.get i x = some t) :
    t.Methods P :=
  BindsAll.get (P := (Ty.Methods P ·)) hs h

/-- Binding a type that holds only methods named by `P` keeps the scopes holding only such methods.
-/
theorem Methods.set (hs : s.Methods P) (i : Nat) (x : String) {t : Ty} (ht : t.Methods P) :
    (s.set i x t).Methods P :=
  BindsAll.set (P := (Ty.Methods P ·)) hs i x ht

/-- Opening a frame binds no method. -/
theorem Methods.child (hs : s.Methods P) (i : Nat) : (s.child i).1.Methods P :=
  BindsAll.child (P := (Ty.Methods P ·)) hs i

/-- Simplifying brings in no method: it returns the type, a binding, or a part of one. -/
theorem Methods.simplify (hs : s.Methods P) (i : Nat) {x : Ty} (hx : x.Methods P) :
    (s.simplify i x).Methods P :=
  BindsAll.simplify (Ty.methods_inherited P) hs i hx

end Scopes

namespace View

variable (v : View) {P : String → Prop}

/-- Unifying with an actual type that holds only methods named by `P` binds no other. -/
theorem unify_methods (hv : v.scopes.Methods P) (e : Ty) {a : Ty} (ha : a.Methods P) :
    (v.unify e a).2.Methods P :=
  (v.unify_all (Ty.methods_inherited P) hv e ha).1

/-- Accepting an actual type that holds only methods named by `P` binds no other. -/
theorem accepts_methods (hv : v.scopes.Methods P) (e : Ty) {a : Ty} (ha : a.Methods P) :
    (v.accepts e a).2.Methods P :=
  v.accepts_all (Ty.methods_inherited P) hv e ha

end View

end Verve
