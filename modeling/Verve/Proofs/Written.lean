import Verve.Proofs.TypeText
import Verve.Proofs.EnumScan
import Verve.Proofs.Lockstep

/-!
# What reading writes

A program's text carries no copy mark `#`: the scan reads every name as an identifier
(`Token.scan_identifiers`), and the checker alone makes the copies `T#k` of generics. So every
name a reader puts in a tree is plain (`Node.Named`), and so is every type it writes into the
declaration table (`Ty.Unmarked`). The table refers to interfaces only through the references
it declares, each under a number of its own (`Decls.Written`).

| what is read | what holds of it |
| --- | --- |
| a name in the tree | `Ty.PlainName` |
| an annotation or a signature | `Decls.Spells`: unmarked, its interfaces declared |
| the table | `Decls.Written` |

`Parse.Plainly W s` is the state reading passes through: identifier tokens hold plain names,
so do the generic names in scope, and the table satisfies `W`. Every reader keeps it with
`W = Decls.Written`, by recursion on the fuel as the readers recurse, and so does reading a
whole program (`Parse.program_written`). Readers of annotations and signatures change no table,
and what they return is spelt in the table they read with (`Parse.signature_spells`); the
declaration readers then write it, and a table only gains interfaces, so what was spelt in it
stays spelt (`Decls.Spells.mono`).
-/

namespace Verve

namespace Ty

/-- An identifier carries no copy mark: it is a name start followed by name characters. -/
theorem plainName_of_isIdentifier {x : String} (h : Token.isIdentifier x = true) : PlainName x := by
  obtain ⟨c, cs, hx, hc, hcs⟩ := Token.isIdentifier_parts h
  rw [PlainName, hx]
  rintro (_ | ⟨_, hmem⟩)
  · exact absurd hc (by decide)
  · exact absurd (hcs _ hmem) (by decide)

/-- A name is a generic of a list of types exactly when it is a generic of one of them. -/
theorem mem_genericNamesList {x : String} {ts : List Ty} :
    x ∈ genericNamesList ts ↔ ∃ t ∈ ts, x ∈ t.genericNames := by
  induction ts with
  | nil => simp [genericNamesList]
  | cons t ts ih => simp [genericNamesList, ih]

mutual

/-- Every interface reference in a type: each interface it names and the owner of each
function type in it, at any depth. -/
def ifaceRefs : Ty → List IfaceRef
  | .basic _ | .generic _ | .enum _ | .data _ => []
  | .app h as => ifaceRefs h ++ ifaceRefsList as
  | .fn _ ps r _ o => ifaceRefsList ps ++ ifaceRefs r ++ o.toList
  | .iface r => [r]
  | .ctor _ _ ps r _ => ifaceRefsList ps ++ ifaceRefs r

/-- `ifaceRefs` of every member of a list, one after another. -/
def ifaceRefsList : List Ty → List IfaceRef
  | [] => []
  | t :: ts => ifaceRefs t ++ ifaceRefsList ts

end

/-- An interface is named in a list of types exactly when one of them names it. -/
theorem mem_ifaceRefsList {r : IfaceRef} {ts : List Ty} :
    r ∈ ifaceRefsList ts ↔ ∃ t ∈ ts, r ∈ t.ifaceRefs := by
  induction ts with
  | nil => simp [ifaceRefsList]
  | cons t ts ih => simp [ifaceRefsList, ih]

/-- A type with no copy mark in it: its named parts are plain, and so is the name of every
generic in it, as in every type a program's text spells. -/
@[mk_iff]
structure Unmarked (t : Ty) : Prop where
  plain : t.Plain
  generics : ∀ x ∈ t.genericNames, PlainName x

/-- Every type of a list is unmarked exactly when the list is plain and its generics are plain
names. -/
theorem unmarkedList_iff {ts : List Ty} :
    (∀ t ∈ ts, t.Unmarked) ↔ PlainList ts ∧ ∀ x ∈ genericNamesList ts, PlainName x := by
  simp only [plainList_iff, mem_genericNamesList]
  exact ⟨fun h => ⟨fun t ht => (h t ht).1, fun x ⟨t, ht, hx⟩ => (h t ht).2 x hx⟩,
    fun h t ht => ⟨h.1 t ht, fun x hx => h.2 x ⟨t, ht, hx⟩⟩⟩

/-- A basic type is unmarked when its name is plain. -/
@[simp] theorem unmarked_basic {n : String} : (Ty.basic n).Unmarked ↔ PlainName n := by
  simp [unmarked_iff, Plain, genericNames]

/-- A generic is unmarked when its name is plain. -/
@[simp] theorem unmarked_generic {x : String} : (Ty.generic x).Unmarked ↔ PlainName x := by
  simp [unmarked_iff, Plain, genericNames]

/-- An interface type is unmarked when its parameter is a plain name. -/
@[simp] theorem unmarked_iface {r : IfaceRef} : (Ty.iface r).Unmarked ↔ PlainName r.generic := by
  simp [unmarked_iff, Plain, genericNames]

/-- An enum is unmarked when its name and its generics are plain. -/
@[simp] theorem unmarked_enum {r : EnumRef} :
    (Ty.enum r).Unmarked ↔ PlainName r.name ∧ ∀ x ∈ r.generics, PlainName x := by
  simp [unmarked_iff, Plain, genericNames]

/-- An applied type is unmarked when its head and every argument are. -/
@[simp] theorem unmarked_app {h : Ty} {as : List Ty} :
    (Ty.app h as).Unmarked ↔ h.Unmarked ∧ ∀ a ∈ as, a.Unmarked := by
  rw [unmarkedList_iff]
  simp only [unmarked_iff, Plain, genericNames, List.mem_append]
  grind

/-- A function type is unmarked when its name, parameters, result, generics and the parameter of its
interface are. -/
@[simp] theorem unmarked_fn {n : String} {ps : List Ty} {r : Ty} {gs : List String}
    {o : Option IfaceRef} :
    (Ty.fn n ps r gs o).Unmarked ↔ PlainName n ∧ (∀ p ∈ ps, p.Unmarked) ∧ r.Unmarked ∧
      (∀ g ∈ gs, PlainName g) ∧ ∀ q ∈ o, PlainName q.generic := by
  rw [unmarkedList_iff]
  simp only [unmarked_iff, Plain, genericNames, List.mem_append, List.mem_map, Option.mem_toList,
    or_imp, forall_and, forall_exists_index, and_imp, forall_apply_eq_imp_iff₂, Option.mem_def]
  tauto

/-- A constructor type is unmarked when its parameters, its result and its generics are. -/
@[simp] theorem unmarked_ctor {i : Nat} {n : String} {ps : List Ty} {r : Ty} {gs : List String} :
    (Ty.ctor i n ps r gs).Unmarked ↔
      (∀ p ∈ ps, p.Unmarked) ∧ r.Unmarked ∧ ∀ g ∈ gs, PlainName g := by
  rw [unmarkedList_iff]
  simp only [unmarked_iff, Plain, genericNames, List.mem_append]
  grind

/-- Replacing a generic by `u` names no interface that neither the type nor `u` named. -/
theorem ifaceRefs_subst (x : String) (u : Ty) :
    (t : Ty) → ∀ r ∈ (subst x u t).ifaceRefs, r ∈ t.ifaceRefs ∨ r ∈ u.ifaceRefs
  | .generic n, r, hr => by
    unfold subst at hr
    split at hr
    · exact .inr hr
    · exact .inl hr
  | .app h as, r, hr => by
    simp only [subst, ifaceRefs, substList_eq_map, List.mem_append, mem_ifaceRefsList,
      List.mem_map] at hr ⊢
    rcases hr with hr | ⟨_, ⟨a, ha, rfl⟩, hr⟩
    · exact (ifaceRefs_subst x u h r hr).imp_left .inl
    · exact (ifaceRefs_subst x u a r hr).imp_left fun hr => .inr ⟨a, ha, hr⟩
  | .fn n ps ret gs o, r, hr => by
    simp only [subst, ifaceRefs, substList_eq_map, List.mem_append, mem_ifaceRefsList,
      List.mem_map] at hr ⊢
    rcases hr with (⟨_, ⟨p, hp, rfl⟩, hr⟩ | hr) | hr
    · exact (ifaceRefs_subst x u p r hr).imp_left fun hr => .inl (.inl ⟨p, hp, hr⟩)
    · exact (ifaceRefs_subst x u ret r hr).imp_left fun hr => .inl (.inr hr)
    · exact .inl (.inr hr)
  | .basic _, _, hr | .iface _, _, hr | .enum _, _, hr | .data _, _, hr
  | .ctor _ _ _ _ _, _, hr => .inl hr

/-- Replacing a generic by an unmarked type leaves an unmarked type unmarked. -/
theorem Unmarked.subst (x : String) {u : Ty} (hu : u.Unmarked) :
    {t : Ty} → t.Unmarked → (Ty.subst x u t).Unmarked
  | .generic n, ht => by
    unfold Ty.subst
    split
    · exact hu
    · exact ht
  | .app h as, ht => by
    rw [unmarked_app] at ht
    rw [Ty.subst, substList_eq_map, unmarked_app]
    refine ⟨Unmarked.subst x hu ht.1, fun b hb => ?_⟩
    obtain ⟨a, ha, rfl⟩ := List.mem_map.1 hb
    exact Unmarked.subst x hu (ht.2 a ha)
  | .fn n ps ret gs o, ht => by
    rw [unmarked_fn] at ht
    obtain ⟨hn, hps, hret, hgs, ho⟩ := ht
    rw [Ty.subst, substList_eq_map, unmarked_fn]
    refine ⟨hn, fun q hq => ?_, Unmarked.subst x hu hret, hgs, ho⟩
    obtain ⟨p, hp, rfl⟩ := List.mem_map.1 hq
    exact Unmarked.subst x hu (hps p hp)
  | .basic _, ht | .iface _, ht | .enum _, ht | .data _, ht | .ctor _ _ _ _ _, ht => ht

end Ty

namespace Decls

variable {d d' : Decls}

/-- The interfaces the table declares, by their references. -/
def refs (d : Decls) : List IfaceRef := d.ifaces.map (·.ref)

/-- A type the table can hold: unmarked, and naming only interfaces the table declares. -/
structure Spells (d : Decls) (t : Ty) : Prop where
  unmarked : t.Unmarked
  refs : ∀ r ∈ t.ifaceRefs, r ∈ d.refs

/-- A table that declares at least the interfaces of another spells every type the other spells. -/
theorem Spells.mono {t : Ty} (h : d.Spells t) (hd : ∀ r ∈ d.refs, r ∈ d'.refs) : d'.Spells t :=
  ⟨h.unmarked, fun r hr => hd r (h.refs r hr)⟩

/-- Recording an implementation declares the same interfaces. -/
theorem refs_addImpl (id : Nat) (key : String) (t : Ty) : (d.addImpl id key t).refs = d.refs := by
  simp only [refs, addImpl, List.map_map]
  congr 1
  funext i
  simp only [Function.comp_apply]
  split <;> rfl

/-- **A table only gains interfaces**: every declaration keeps those it has. -/
theorem Step.refs_subset (h : Step d d') : ∀ r ∈ d.refs, r ∈ d'.refs := by
  cases h with
  | bind | enum | fresh => exact fun _ hr => hr
  | iface r _ => exact fun _ hr => List.mem_cons_of_mem _ hr
  | impl id key t => exact fun _ hr => (refs_addImpl id key t).symm ▸ hr

/-- Along any run of declarations the table keeps every interface it had. -/
theorem refs_subset_of_steps (h : Relation.ReflTransGen Step d d') : ∀ r ∈ d.refs, r ∈ d'.refs := by
  induction h with
  | refl => exact fun _ hr => hr
  | tail _ hstep ih => exact fun r hr => hstep.refs_subset r (ih r hr)

/-- **The declaration table as reading builds it.** Every name bound in the root scope is
plain; every type in the table is spelt with the interfaces it declares, the methods of those
included; and each interface has a number below the next one and taken by no other. -/
structure Written (d : Decls) : Prop where
  names : ∀ b ∈ d.env, Ty.PlainName b.1
  env : ∀ b ∈ d.env, d.Spells b.2
  types : ∀ b ∈ d.types, d.Spells b.2
  methods : ∀ i ∈ d.ifaces, ∀ m ∈ i.methods, d.Spells m.2.toTy
  id_lt : ∀ i ∈ d.ifaces, i.ref.id < d.nextId
  nodup : (d.ifaces.map (·.ref.id)).Nodup

/-- **The table reading starts from is written**: its built-in types and the list enum are spelt
with plain names, and it declares no interface. -/
theorem written_initial : initial.Written where
  names := by decide +kernel
  env b hb := by
    -- the basic types, the list enum and its two constructors
    simp only [initial, List.foldl_cons, List.foldl_nil, List.mem_cons, List.not_mem_nil,
      or_false] at hb
    rcases hb with rfl | rfl | rfl | rfl | rfl | rfl | rfl | rfl | rfl <;>
      exact ⟨by simp [listRef, Ty.PlainName], by simp [Ty.ifaceRefs, Ty.ifaceRefsList]⟩
  types b hb := by
    simp only [initial, List.foldl_cons, List.foldl_nil, List.mem_cons, List.not_mem_nil,
      or_false] at hb
    rcases hb with rfl | rfl | rfl | rfl | rfl | rfl <;>
      exact ⟨by simp [listRef, Ty.PlainName], by simp [Ty.ifaceRefs]⟩
  methods := by simp [initial]
  id_lt := by simp [initial]
  nodup := by simp [initial]

namespace Written

variable (h : d.Written)
include h

/-- Binding a plain name to a type the table spells. -/
theorem set {x : String} {t : Ty} (hx : Ty.PlainName x) (ht : d.Spells t) : (d.set x t).Written where
  names b hb := (List.mem_cons.1 hb).elim (fun e => e ▸ hx) (h.names b)
  env b hb := ((List.mem_cons.1 hb).elim (fun e => e ▸ ht) (h.env b)).mono fun _ hr => hr
  types b hb := (h.types b hb).mono fun _ hr => hr
  methods i hi m hm := (h.methods i hi m hm).mono fun _ hr => hr
  id_lt := h.id_lt
  nodup := h.nodup

/-- Declaring a type name for a type the table spells. -/
theorem setType {x : String} {t : Ty} (ht : d.Spells t) : (d.setType x t).Written where
  names := h.names
  env b hb := (h.env b hb).mono fun _ hr => hr
  types b hb := ((List.mem_cons.1 hb).elim (fun e => e ▸ ht) (h.types b)).mono fun _ hr => hr
  methods i hi m hm := (h.methods i hi m hm).mono fun _ hr => hr
  id_lt := h.id_lt
  nodup := h.nodup

/-- Taking a fresh interface number keeps the table written: every number taken stays below the
next. -/
theorem fresh : d.fresh.2.Written where
  names := h.names
  env b hb := (h.env b hb).mono fun _ hr => hr
  types b hb := (h.types b hb).mono fun _ hr => hr
  methods i hi m hm := (h.methods i hi m hm).mono fun _ hr => hr
  id_lt i hi := Nat.lt_succ_of_lt (h.id_lt i hi)
  nodup := h.nodup

/-- Recording an implementation changes no interface's reference or methods. -/
theorem addImpl (id : Nat) (key : String) (t : Ty) : (d.addImpl id key t).Written := by
  -- each interface of the new table is one of the old, with the same reference and methods
  have hsame : ∀ i ∈ (d.addImpl id key t).ifaces, ∃ i' ∈ d.ifaces, i.ref = i'.ref ∧
      i.methods = i'.methods := by
    intro i hi
    obtain ⟨i', hi', rfl⟩ := List.mem_map.1 hi
    refine ⟨i', hi', ?_⟩
    split <;> exact ⟨rfl, rfl⟩
  have hrefs := refs_addImpl (d := d) id key t
  have hkeep : ∀ r ∈ d.refs, r ∈ (d.addImpl id key t).refs := fun r hr => hrefs ▸ hr
  refine ⟨h.names, fun b hb => (h.env b hb).mono hkeep, fun b hb => (h.types b hb).mono hkeep,
    fun i hi m hm => ?_, fun i hi => ?_, ?_⟩
  · obtain ⟨i', hi', -, hm'⟩ := hsame i hi
    exact (h.methods i' hi' m (hm' ▸ hm)).mono hkeep
  · obtain ⟨i', hi', href, -⟩ := hsame i hi
    exact href ▸ h.id_lt i' hi'
  · have hids := congrArg (List.map IfaceRef.id) hrefs
    simp only [refs, List.map_map] at hids
    exact hids ▸ h.nodup

end Written

/-- Binding names one after another adds their bindings, the last in front, to the root
scope. -/
theorem foldl_set {β : Type} (f : β → Ty) :
    ∀ (l : List (String × β)) (d : Decls), l.foldl (fun e b => e.set b.1 (f b.2)) d =
      { d with env := (l.map fun b => (b.1, f b.2)).reverse ++ d.env }
  | [], d => rfl
  | b :: l, d => by
    rw [List.foldl_cons, foldl_set f l]
    simp [set]

/-- **Declaring an interface keeps the table written.** The interface takes the next number,
its methods (each with the interface as owner, so naming it) are bound in the root scope,
and its name becomes a type name. -/
theorem Written.declareIface (h : d.Written) {name : String} {ref : IfaceRef}
    (hid : ref.id = d.nextId) (hgen : Ty.PlainName ref.generic) {methods : List (String × Sig)}
    (hm : ∀ m ∈ methods, Ty.PlainName m.1 ∧ m.2.toTy.Unmarked ∧
      ∀ r ∈ m.2.toTy.ifaceRefs, r = ref ∨ r ∈ d.refs) :
    (((methods.foldl (fun e b => e.set b.1 b.2.toTy) d.fresh.2).setType name
      (.iface ref)).addIface ⟨ref, methods, []⟩).Written := by
  rw [foldl_set Sig.toTy]
  -- the new table declares the interface in front of the old ones
  have hold : ∀ r ∈ d.refs, r ∈ ref :: d.refs := fun r hr => List.mem_cons_of_mem _ hr
  have hmethod : ∀ m ∈ methods, ∀ r ∈ m.2.toTy.ifaceRefs, r ∈ ref :: d.refs := fun m hmem r hr =>
    ((hm m hmem).2.2 r hr).elim (fun e => e ▸ List.mem_cons_self) (hold r)
  refine ⟨fun b hb => ?_, fun b hb => ?_, fun b hb => ?_, fun i hi m hmem => ?_, fun i hi => ?_, ?_⟩
  · rcases List.mem_append.1 hb with hb | hb
    · obtain ⟨m, hmem, rfl⟩ := List.mem_map.1 (List.mem_reverse.1 hb)
      exact (hm m hmem).1
    · exact h.names b hb
  · rcases List.mem_append.1 hb with hb | hb
    · obtain ⟨m, hmem, rfl⟩ := List.mem_map.1 (List.mem_reverse.1 hb)
      exact ⟨(hm m hmem).2.1, hmethod m hmem⟩
    · exact (h.env b hb).mono hold
  · rcases List.mem_cons.1 hb with rfl | hb
    · exact ⟨Ty.unmarked_iface.2 hgen, fun r hr => by
        rw [List.mem_singleton.1 hr]
        exact List.mem_cons_self⟩
    · exact (h.types b hb).mono hold
  · rcases List.mem_cons.1 hi with rfl | hi
    · exact ⟨(hm m hmem).2.1, hmethod m hmem⟩
    · exact (h.methods i hi m hmem).mono hold
  · rcases List.mem_cons.1 hi with rfl | hi
    · exact hid ▸ Nat.lt_succ_self _
    · exact Nat.lt_succ_of_lt (h.id_lt i hi)
  · refine List.nodup_cons.2 ⟨fun hmem => ?_, h.nodup⟩
    obtain ⟨i, hi, he⟩ := List.mem_map.1 hmem
    have hlt : i.ref.id < d.nextId := h.id_lt i hi
    rw [he] at hlt
    exact Nat.lt_irrefl _ (hid ▸ hlt)

namespace Spells

variable {d : Decls}

/-- A generic is spelt exactly when its name is plain. -/
@[simp] theorem generic {x : String} : d.Spells (.generic x) ↔ Ty.PlainName x :=
  ⟨fun h => Ty.unmarked_generic.1 h.unmarked,
    fun h => ⟨Ty.unmarked_generic.2 h, by simp [Ty.ifaceRefs]⟩⟩

/-- An applied type is spelt when its head and arguments are. -/
theorem app {h : Ty} {as : List Ty} (hh : d.Spells h) (has : ∀ a ∈ as, d.Spells a) :
    d.Spells (.app h as) := by
  refine ⟨Ty.unmarked_app.2 ⟨hh.unmarked, fun a ha => (has a ha).unmarked⟩, fun r hr => ?_⟩
  rcases List.mem_append.1 hr with hr | hr
  · exact hh.refs r hr
  · obtain ⟨a, ha, hr⟩ := Ty.mem_ifaceRefsList.1 hr
    exact (has a ha).refs r hr

/-- A function type is spelt when its name, parameters, result and generics are, and its
owner, if any, is declared with a plain parameter. -/
theorem fn {n : String} {ps : List Ty} {r : Ty} {gs : List String} {o : Option IfaceRef}
    (hn : Ty.PlainName n) (hps : ∀ p ∈ ps, d.Spells p) (hr : d.Spells r)
    (hgs : ∀ g ∈ gs, Ty.PlainName g) (ho : ∀ q ∈ o, Ty.PlainName q.generic ∧ q ∈ d.refs) :
    d.Spells (.fn n ps r gs o) := by
  refine ⟨Ty.unmarked_fn.2 ⟨hn, fun p hp => (hps p hp).unmarked, hr.unmarked, hgs,
    fun q hq => (ho q hq).1⟩, fun q hq => ?_⟩
  simp only [Ty.ifaceRefs, List.mem_append, Option.mem_toList] at hq
  rcases hq with (hq | hq) | hq
  · obtain ⟨p, hp, hq⟩ := Ty.mem_ifaceRefsList.1 hq
    exact (hps p hp).refs q hq
  · exact hr.refs q hq
  · exact (ho q hq).2

/-- The parts of a spelt function type are spelt, and its interface is declared with a plain
parameter. -/
theorem of_fn {n : String} {ps : List Ty} {r : Ty} {gs : List String} {o : Option IfaceRef}
    (h : d.Spells (.fn n ps r gs o)) :
    Ty.PlainName n ∧ (∀ p ∈ ps, d.Spells p) ∧ d.Spells r ∧ (∀ g ∈ gs, Ty.PlainName g) ∧
      ∀ q ∈ o, Ty.PlainName q.generic ∧ q ∈ d.refs := by
  obtain ⟨hn, hps, hr, hgs, ho⟩ := Ty.unmarked_fn.1 h.unmarked
  have hrefs := h.refs
  simp only [Ty.ifaceRefs, List.mem_append, Option.mem_toList] at hrefs
  exact ⟨hn, fun p hp => ⟨hps p hp, fun q hq =>
      hrefs q (.inl (.inl (Ty.mem_ifaceRefsList.2 ⟨p, hp, hq⟩)))⟩,
    ⟨hr, fun q hq => hrefs q (.inl (.inr hq))⟩, hgs, fun q hq => ⟨ho q hq, hrefs q (.inr hq)⟩⟩

/-- Replacing a generic by a spelt type keeps a type spelt. -/
theorem subst (x : String) {u t : Ty} (hu : d.Spells u) (ht : d.Spells t) :
    d.Spells (Ty.subst x u t) :=
  ⟨Ty.Unmarked.subst x hu.unmarked ht.unmarked, fun r hr =>
    (Ty.ifaceRefs_subst x u t r hr).elim (ht.refs r) (hu.refs r)⟩

/-- The signature an implementation gives a method: the method's name followed by the key, and
the interface's parameter replaced by the implementing type. -/
theorem implSig {i : Iface} {ty : Ty} {key : String} {method : Sig} (hty : d.Spells ty)
    (hm : d.Spells method.toTy) (hkey : Ty.PlainName key) : d.Spells (i.implSig ty key method).toTy := by
  obtain ⟨hn, hps, hr, hgs, -⟩ := hm.of_fn
  refine fn (Relabel.plainName_append hn hkey) (fun p hp => ?_) (subst _ hty hr) hgs (fun _ h => by cases h)
  obtain ⟨q, hq, rfl⟩ := List.mem_map.1 hp
  exact subst _ hty (hps q hq)

end Spells

/-- A type the table declares under a name is spelt. -/
theorem Written.typeNamed {d : Decls} (h : d.Written) {x : String} {t : Ty}
    (ht : d.typeNamed? x = some t) : d.Spells t := by
  obtain ⟨b, hb, rfl⟩ := List.mem_map.1 (lookup_snd_mem ht)
  exact h.types b hb

/-- A type the table binds a name to in the root scope is spelt. -/
theorem Written.lookup {d : Decls} (h : d.Written) {x : String} {t : Ty}
    (ht : d.lookup x = some t) : d.Spells t := by
  obtain ⟨b, hb, rfl⟩ := List.mem_map.1 (lookup_snd_mem ht)
  exact h.env b hb

/-- **The built-in types of a read table are spelt in it**: each is the type the table binds
to its name, or the plain default. -/
theorem Written.builtins {d : Decls} (h : d.Written) :
    ∀ t ∈ [(Builtins.ofDecls d).int, (Builtins.ofDecls d).float, (Builtins.ofDecls d).string,
      (Builtins.ofDecls d).void, (Builtins.ofDecls d).list], d.Spells t := by
  have hget : ∀ x u, d.Spells u → d.Spells ((d.lookup x).getD u) := fun x u hu => by
    cases hx : d.lookup x with
    | none => exact hu
    | some t => exact h.lookup hx
  have hbasic : ∀ n, Ty.PlainName n → d.Spells (.basic n) := fun n hn =>
    ⟨Ty.unmarked_basic.2 hn, by simp [Ty.ifaceRefs]⟩
  have hlist : d.Spells (.enum listRef) :=
    ⟨Ty.unmarked_enum.2 ⟨by decide +kernel, by decide +kernel⟩, by simp [Ty.ifaceRefs]⟩
  simp only [Builtins.ofDecls, List.mem_cons, List.not_mem_nil, or_false]
  rintro t (rfl | rfl | rfl | rfl | rfl)
  · exact hget _ _ (hbasic _ (by decide +kernel))
  · exact hget _ _ (hbasic _ (by decide +kernel))
  · exact hget _ _ (hbasic _ (by decide +kernel))
  · exact hget _ _ (hbasic _ (by decide +kernel))
  · exact hget _ _ hlist

end Decls

/-- A list of nodes is plainly named exactly when each of its nodes is. -/
theorem Node.listNamed_iff {ns : List Node} : Node.ListNamed ns ↔ ∀ n ∈ ns, n.Named := by
  induction ns with
  | nil => simp [Node.ListNamed]
  | cons n ns ih => simp [Node.ListNamed, ih]

namespace Parse

/-- **The states reading passes through.** Every identifier token holds a plain name, so does
every generic name in scope, and the table satisfies `W`. -/
structure Plainly (W : Decls → Prop) (s : State) : Prop where
  idents : ∀ i, (tokenAt s.tokens i).kind = .identifier → Ty.PlainName (tokenAt s.tokens i).value
  generics : ∀ g ∈ s.generics, Ty.PlainName g
  decls : W s.decls

section Cursor

variable {W : Decls → Prop} {β : Type}

/-- Moving to another token keeps the names and the table. -/
theorem Plainly.moved {s : State} (h : Plainly W s) (p : Nat) : Plainly W { s with pos := p } :=
  ⟨h.idents, h.generics, h.decls⟩

/-- The current token, when it is an identifier, holds a plain name. -/
theorem plainly_current :
    Preserves (Plainly W) current (fun t => t.kind = .identifier → Ty.PlainName t.value) :=
  fun s _ _ hs he => by cases he; exact ⟨hs, hs.idents s.pos⟩

/-- Reading the state gives a state with plain names. -/
theorem plainly_get : Preserves (Plainly W) get (Plainly W) :=
  fun _ _ _ hs he => by cases he; exact ⟨hs, hs⟩

/-- A reader that gives up on an unexpected token keeps the invariant, having returned nothing. -/
theorem plainly_unexpected {P : β → Prop} : Preserves (Plainly W) unexpected P :=
  Preserves.bind plainly_current fun _ _ => Preserves.throw

/-- A reader out of fuel returns nothing. -/
theorem plainly_outOfFuel {P : β → Prop} : Preserves (Plainly W) outOfFuel P :=
  Preserves.bind plainly_current fun _ _ => Preserves.throw

/-- Moving past a token keeps the names and the table, and an identifier passed holds a plain name.
-/
theorem plainly_advance :
    Preserves (Plainly W) advance (fun t => t.kind = .identifier → Ty.PlainName t.value) := by
  intro s t s' hs he
  rw [run_advance] at he
  cases he
  refine ⟨?_, hs.idents s.pos⟩
  split
  · exact hs.moved _
  · exact hs

/-- Expecting a token of a kind gives a token of that kind, plainly named when it is an identifier.
-/
theorem plainly_expect (k : TokenKind) :
    Preserves (Plainly W) (expect k)
      (fun t => t.kind = k ∧ (t.kind = .identifier → Ty.PlainName t.value)) := by
  intro s t s' hs he
  unfold expect at he
  rw [run_bind_ok (run_current s)] at he
  split at he
  · rename_i hk
    obtain ⟨hs', ht⟩ := plainly_advance s t s' hs he
    rw [run_advance] at he
    cases he
    exact ⟨hs', hk, ht⟩
  · cases he

/-- Eating an optional token keeps the names and the table. -/
theorem plainly_eat (k : TokenKind) : Preserves (Plainly W) (eat k) (fun _ => True) := by
  unfold eat
  refine Preserves.bind plainly_current fun _ _ => ?_
  split
  · exact Preserves.bind plainly_advance fun _ _ => Preserves.pure trivial
  · exact Preserves.pure trivial

/-- Taking the position keeps the names and the table. -/
theorem plainly_position : Preserves (Plainly W) position (fun _ => True) :=
  Preserves.bind plainly_current fun _ _ => Preserves.pure trivial

/-- Taking the span from a start keeps the names and the table. -/
theorem plainly_spanFrom (start : Nat) : Preserves (Plainly W) (spanFrom start) (fun _ => True) := by
  unfold spanFrom
  refine Preserves.bind plainly_get fun _ _ => ?_
  split <;> exact Preserves.pure trivial

/-- A name bound by a parameter list or a pattern is plain. -/
theorem plainly_binding : Preserves (Plainly W) binding (fun b => Ty.PlainName b.name) :=
  Preserves.bind (plainly_expect _) fun _ ht => Preserves.pure (ht.2 ht.1)

/-- Items read one after another, each satisfying `P`, all satisfy it. -/
theorem plainly_delimited {item : Reader β} {P : β → Prop} (h : Preserves (Plainly W) item P)
    (close : TokenKind) : (fuel : Nat) → (acc : List β) → (∀ x ∈ acc, P x) →
      Preserves (Plainly W) (delimited item close fuel acc) (∀ x ∈ ·, P x)
  | 0, _, _ => plainly_outOfFuel
  | fuel + 1, acc, hacc => by
    unfold delimited
    refine Preserves.bind plainly_current fun _ _ => ?_
    split
    · exact Preserves.bind plainly_advance fun _ _ =>
        Preserves.pure fun y hy => hacc y (List.mem_reverse.1 hy)
    · refine Preserves.bind h fun x hx => Preserves.bind (plainly_eat _) fun _ _ => ?_
      have hall : ∀ y ∈ x :: acc, P y := by simpa [hx] using hacc
      split
      · exact plainly_delimited h close fuel (x :: acc) hall
      · exact Preserves.bind (plainly_expect _) fun _ _ =>
          Preserves.pure fun y hy => hall y (List.mem_reverse.1 hy)

/-- Reading with more generic names in scope, all plain. -/
theorem plainly_withGenerics {names : List String} (hn : ∀ g ∈ names, Ty.PlainName g)
    {r : Reader β} {P : β → Prop} (h : Preserves (Plainly W) r P) :
    Preserves (Plainly W) (withGenerics names r) P := by
  intro s a s' hs he
  obtain ⟨s'', hr, rfl⟩ := withGenerics_runs he
  have hin : Plainly W { s with generics := s.generics ++ names } :=
    ⟨hs.idents, fun g hg => (List.mem_append.1 hg).elim (hs.generics g) (hn g), hs.decls⟩
  obtain ⟨hs'', ha⟩ := h _ a s'' hin hr
  exact ⟨⟨hs''.idents, hs.generics, hs''.decls⟩, ha⟩

/-- Declaring keeps the invariant whenever the declaration keeps the table's part of it. -/
theorem plainly_declare {f : Decls → Decls} (hf : ∀ d, W d → W (f d)) :
    Preserves (Plainly W) (declare f) (fun _ => True) :=
  fun s _ s' hs he => by
    rw [run_declare] at he
    cases he
    exact ⟨⟨hs.idents, hs.generics, hf _ hs.decls⟩, trivial⟩

end Cursor

/-! ## Annotations and signatures, read with a table -/

section Annotations

variable {D : Decls} {β : Type}

/-- **Every annotation of plain names denotes a spelt type**, with a written table: a generic
of a plain name, a type the table declares, or one built from these. -/
theorem Denotes.spells {G : List String} (hD : D.Written) {t : Ty} (h : Denotes Ty.PlainName G D t) : D.Spells t := by
  -- a name denotes a generic in scope or a type the table declares under it
  have hname : ∀ {x : String} {u : Ty}, Ty.PlainName x → NameDenotes G D x u → D.Spells u := by
    rintro x u hx (⟨-, rfl⟩ | ⟨-, hu⟩)
    · exact Decls.Spells.generic.2 hx
    · exact hD.typeNamed hu
  induction h with
  | name hx hn => exact hname hx hn
  | app hx hn _ ih => exact Decls.Spells.app (hname hx hn) ih
  | fn _ _ ihps ihr => exact Decls.Spells.fn (by decide) ihps ihr (fun _ h => by cases h) (fun _ h => by cases h)

/-- An annotation is read without changing the table, and is spelt in it. -/
theorem typeExpr_spells (hD : D.Written) (fuel : Nat) :
    Preserves (Plainly (· = D)) (typeExpr fuel) D.Spells := by
  intro s t s' hs h
  obtain ⟨hs', ht⟩ := typeExpr_denotes (N := Ty.PlainName) (G := s.generics) fuel s t s'
    ⟨rfl, hs.decls, hs.idents⟩ h
  exact ⟨⟨hs'.idents, hs'.generics ▸ hs.generics, hs'.decls⟩, ht.spells hD⟩

/-- A typed parameter binds a plain name to a type the table spells. -/
theorem typedParam_spells (hD : D.Written) (fuel : Nat) :
    Preserves (Plainly (· = D)) (typedParam fuel) (fun p => Ty.PlainName p.1.name ∧ D.Spells p.2) := by
  unfold typedParam
  refine Preserves.bind (plainly_expect _) fun t ht => Preserves.bind (plainly_expect _) fun _ _ => ?_
  exact Preserves.bind (typeExpr_spells hD fuel) fun _ hty => Preserves.pure ⟨ht.2 ht.1, hty⟩

/-- Generic names in angle brackets are plain. -/
theorem genericParams_plain {W : Decls → Prop} (fuel : Nat) :
    Preserves (Plainly W) (genericParams fuel) (∀ g ∈ ·, Ty.PlainName g) := by
  unfold genericParams
  refine Preserves.bind (plainly_eat _) fun _ _ => ?_
  split
  · exact plainly_delimited (Preserves.bind (plainly_expect _) fun _ ht => Preserves.pure (ht.2 ht.1))
      _ fuel [] (fun _ h => by cases h)
  · exact Preserves.pure (fun _ h => by cases h)

/-- **A signature is read without changing the table, and is spelt in it**: its name, its
generics and the names of its parameters are plain, its types spelt, and it has no owner. -/
theorem signature_spells (hD : D.Written) (fuel : Nat) :
    Preserves (Plainly (· = D)) (signature fuel)
      (fun r => (∀ q ∈ r.1, Ty.PlainName q.name) ∧ D.Spells r.2.toTy) := by
  unfold signature
  refine Preserves.bind plainly_current fun t ht => ?_
  split
  · exact Preserves.throw_bind
  rename_i hk
  refine Preserves.bind plainly_advance fun _ _ => Preserves.bind (genericParams_plain fuel)
    fun gs hgs => plainly_withGenerics hgs ?_
  refine Preserves.bind (plainly_expect _) fun _ _ =>
    Preserves.bind (plainly_delimited (typedParam_spells hD fuel) _ fuel [] (fun _ h => by cases h)) fun ps hps => ?_
  refine Preserves.bind (plainly_expect _) fun _ _ =>
    Preserves.bind (typeExpr_spells hD fuel) fun r hr => Preserves.pure ⟨?_, ?_⟩
  · intro q hq
    obtain ⟨p, hp, rfl⟩ := List.mem_map.1 hq
    exact (hps p hp).1
  · refine Decls.Spells.fn (ht (not_not.1 hk)) (fun u hu => ?_) hr hgs (fun _ h => by cases h)
    obtain ⟨p, hp, rfl⟩ := List.mem_map.1 hu
    exact (hps p hp).2

/-- Method signatures up to the closing brace of an interface are spelt. -/
theorem prototypes_spells (hD : D.Written) (fuel : Nat) : (n : Nat) → (acc : List Sig) →
    (∀ f ∈ acc, D.Spells f.toTy) →
      Preserves (Plainly (· = D)) (prototypes fuel n acc) (∀ f ∈ ·, D.Spells f.toTy)
  | 0, _, _ => plainly_outOfFuel
  | n + 1, acc, hacc => by
    unfold prototypes
    refine Preserves.bind plainly_current fun _ _ => ?_
    split
    · exact Preserves.pure fun f hf => hacc f (List.mem_reverse.1 hf)
    refine Preserves.bind (plainly_expect _) fun _ _ =>
      Preserves.bind (signature_spells hD fuel) fun r hr => ?_
    refine Preserves.bind (plainly_eat _) fun _ _ => prototypes_spells hD fuel n _ ?_
    exact List.forall_mem_cons.2 ⟨hr.2, hacc⟩

/-- The entry of a constructor: a plain name and spelt parameter types. -/
theorem ctorEntry_spells (hD : D.Written) (fuel : Nat) :
    Preserves (Plainly (· = D)) (ctorEntry fuel)
      (fun c => Ty.PlainName c.1 ∧ ∀ p ∈ c.2, D.Spells p) := by
  unfold ctorEntry
  refine Preserves.bind (plainly_expect _) fun t ht => Preserves.bind (plainly_eat _) fun _ _ => ?_
  dsimp only
  split
  · exact Preserves.bind (plainly_delimited (typeExpr_spells hD fuel) _ fuel [] (fun _ h => by cases h))
      fun _ hps => Preserves.pure ⟨ht.2 ht.1, hps⟩
  · exact Preserves.bind (Q := fun ps => ∀ p ∈ ps, D.Spells p) (Preserves.pure (fun _ h => by cases h))
      fun _ hps => Preserves.pure ⟨ht.2 ht.1, hps⟩

end Annotations

/-! ## Declarations -/

/-- The first step of a run that returns keeps `I` and gives a value with `P`; the rest of
the run goes on from there. -/
theorem Preserves.first {α β : Type} {I : State → Prop} {m : Reader α} {f : α → Reader β}
    {P : α → Prop} (hm : Preserves I m P) {s s'' : State} {b : β} (hs : I s)
    (h : (m >>= f).run s = .ok (b, s'')) : ∃ a s', I s' ∧ P a ∧ (f a).run s' = .ok (b, s'') := by
  obtain ⟨a, s', hm', hf⟩ := run_bind_eq_ok h
  obtain ⟨hs', ha⟩ := hm s a s' hs hm'
  exact ⟨a, s', hs', ha, hf⟩

/-- A reader whose values satisfy `P` satisfies every consequence of `P`. -/
theorem Preserves.imp {α : Type} {I : State → Prop} {r : Reader α} {P Q : α → Prop}
    (h : Preserves I r P) (hpq : ∀ a, P a → Q a) : Preserves I r Q :=
  fun s a s' hs he => (h s a s' hs he).imp_right (hpq a)

/-- A state read with the table it starts from. -/
theorem Plainly.at_decls {s : State} (h : Plainly Decls.Written s) : Plainly (· = s.decls) s :=
  ⟨h.idents, h.generics, rfl⟩

/-- A `for` loop whose every round keeps `I` keeps it too. -/
theorem Preserves.forIn {γ β : Type} {I : State → Prop} {l : List γ} {b : β}
    {f : γ → β → Reader (ForInStep β)} (hf : ∀ x ∈ l, ∀ b, Preserves I (f x b) (fun _ => True)) :
    Preserves I (ForIn.forIn l b f) (fun _ => True) := by
  induction l generalizing b with
  | nil => exact Preserves.pure trivial
  | cons x l ih =>
    rw [List.forIn_cons]
    refine Preserves.bind (hf x List.mem_cons_self b) fun r _ => ?_
    cases r with
    | done b' => exact Preserves.pure trivial
    | yield b' => exact ih (fun y hy => hf y (List.mem_cons_of_mem _ hy))

/-- Taking a fresh interface number keeps the invariant whenever the new table satisfies `W`. -/
theorem plainly_freshId {W : Decls → Prop} (hW : ∀ d, W d → W d.fresh.2) :
    Preserves (Plainly W) freshId (fun _ => True) :=
  fun s _ _ hs he => by
    rw [run_freshId] at he
    cases he
    exact ⟨⟨hs.idents, hs.generics, hW _ hs.decls⟩, trivial⟩

/-- A loop whose rounds each bind a signature under its name binds them all, in order. -/
theorem run_forIn_set {f : String × Sig → PUnit → Reader (ForInStep PUnit)}
    (hf : ∀ b s r s', (f b PUnit.unit).run s = .ok (r, s') →
      r = .yield PUnit.unit ∧ s' = { s with decls := s.decls.set b.1 b.2.toTy }) :
    ∀ (l : List (String × Sig)) (s s' : State) (u : PUnit), (forIn l PUnit.unit f).run s = .ok (u, s') →
      s' = { s with decls := l.foldl (fun e b => e.set b.1 b.2.toTy) s.decls }
  | [], s, s', _, h => by
    obtain ⟨-, rfl⟩ := run_pure_eq_ok h
    rfl
  | b :: l, s, s', u, h => by
    rw [List.forIn_cons] at h
    obtain ⟨r, s1, hb, h⟩ := run_bind_eq_ok h
    obtain ⟨rfl, rfl⟩ := hf b s r s1 hb
    exact run_forIn_set hf l _ s' u h

/-- The declarations without bodies leave no node. An external function's signature is read
with the table it is then bound in. -/
theorem externDecl_written (fuel : Nat) :
    Preserves (Plainly Decls.Written) (externDecl fuel) (∀ n ∈ ·, n.Named) := by
  intro s ns s' hs h
  unfold externDecl at h
  obtain ⟨_, s1, hs1, -, h⟩ := plainly_advance.first hs.at_decls h
  obtain ⟨_, s2, hs2, -, h⟩ := (plainly_expect _).first hs1 h
  obtain ⟨⟨_, sig⟩, s3, hs3, ⟨-, hsig⟩, h⟩ := (signature_spells hs.decls fuel).first hs2 h
  obtain ⟨_, s4, hs4, -, h⟩ := (plainly_eat _).first hs3 h
  obtain ⟨_, s5, h5, h⟩ := run_bind_eq_ok h
  rw [run_declare] at h5
  cases h5
  obtain ⟨rfl, rfl⟩ := run_pure_eq_ok h
  refine ⟨⟨hs4.idents, hs4.generics, ?_⟩, (fun _ h => by cases h)⟩
  rw [show s4.decls = s.decls from hs4.decls]
  exact hs.decls.set hsig.of_fn.1 hsig

/-- An interface's methods are read with the table it is declared in; each then names the
interface as its owner. -/
theorem interfaceDecl_written (fuel : Nat) :
    Preserves (Plainly Decls.Written) (interfaceDecl fuel) (∀ n ∈ ·, n.Named) := by
  intro s ns s' hs h
  unfold interfaceDecl at h
  obtain ⟨_, s1, hs1, -, h⟩ := plainly_advance.first hs.at_decls h
  obtain ⟨_, s2, hs2, -, h⟩ := (plainly_expect _).first hs1 h
  obtain ⟨_, s3, hs3, -, h⟩ := (plainly_expect _).first hs2 h
  obtain ⟨g, s4, hs4, hg, h⟩ := (plainly_expect _).first hs3 h
  obtain ⟨_, s5, hs5, -, h⟩ := plainly_current.first hs4 h
  split at h
  · cases h
  obtain ⟨_, s6, hs6, -, h⟩ := plainly_advance.first hs5 h
  have hgen : Ty.PlainName g.value := hg.2 hg.1
  obtain ⟨protos, s7, hs7, hprotos, h⟩ := (plainly_withGenerics (List.forall_mem_singleton.2 hgen)
    (Preserves.bind (plainly_expect _) fun _ _ =>
      Preserves.bind (prototypes_spells hs.decls fuel fuel [] (fun _ h => by cases h)) fun _ hps =>
        Preserves.bind (plainly_expect _) fun _ _ => Preserves.pure hps)).first hs6 h
  obtain ⟨_, s8, h8, h⟩ := run_bind_eq_ok h
  rw [run_freshId] at h8
  cases h8
  obtain ⟨_, s9, h9, h⟩ := run_bind_eq_ok h
  -- the methods are bound one by one, then the interface is declared
  have hloop := run_forIn_set (fun b s r s' hr => by
      obtain ⟨m, sig⟩ := b
      obtain ⟨_, s1, h1, h2⟩ := run_bind_eq_ok hr
      rw [run_declare] at h1
      cases h1
      obtain ⟨rfl, rfl⟩ := run_pure_eq_ok h2
      exact ⟨rfl, rfl⟩) _ _ _ _ h9
  subst hloop
  obtain ⟨_, s10, h10, h⟩ := run_bind_eq_ok h
  rw [run_declare] at h10
  cases h10
  obtain ⟨rfl, rfl⟩ := run_pure_eq_ok h
  refine ⟨⟨hs7.idents, hs7.generics, ?_⟩, (fun _ h => by cases h)⟩
  dsimp only
  rw [show s7.decls = s.decls from hs7.decls]
  refine hs.decls.declareIface rfl hgen fun m hm => ?_
  obtain ⟨f, hf, rfl⟩ := List.mem_map.1 (mem_of_mem_latestBindings hm)
  obtain ⟨hn, hps, hr, hgs, -⟩ := (hprotos f (List.mem_reverse.1 hf)).of_fn
  refine ⟨hn, Ty.unmarked_fn.2 ⟨hn, fun p hp => (hps p hp).unmarked, hr.unmarked, hgs, ?_⟩,
    fun r hr' => ?_⟩
  · rintro q ⟨⟩
    exact hgen
  · simp only [Sig.toTy, Ty.ifaceRefs, List.mem_append, Option.mem_toList,
      Option.some.injEq] at hr'
    rcases hr' with (hr' | hr') | rfl
    · obtain ⟨p, hp, hr'⟩ := Ty.mem_ifaceRefsList.1 hr'
      exact .inr ((hps p hp).refs r hr')
    · exact .inr (hr.refs r hr')
    · exact .inl rfl

/-- An enum's constructors are read with the table that declares the enum, and each is bound
with a fresh number in a table that has gained no interface since. -/
theorem enumDecl_written (fuel : Nat) :
    Preserves (Plainly Decls.Written) (enumDecl fuel) (∀ n ∈ ·, n.Named) := by
  intro s ns s' hs h
  unfold enumDecl at h
  obtain ⟨_, s1, hs1, -, h⟩ := plainly_advance.first hs.at_decls h
  obtain ⟨t, s2, hs2, ht, h⟩ := (plainly_expect _).first hs1 h
  obtain ⟨gs, s3, hs3, hgs, h⟩ := (genericParams_plain fuel).first hs2 h
  obtain ⟨_, s4, hs4, -, h⟩ := (plainly_expect _).first hs3 h
  obtain ⟨_, s5, h5, h⟩ := run_bind_eq_ok h
  obtain ⟨rfl, rfl⟩ := run_get_eq_ok h5
  obtain ⟨_, s6, h6, h⟩ := run_bind_eq_ok h
  rw [run_freshId] at h6
  cases h6
  obtain ⟨_, s7, h7, h⟩ := run_bind_eq_ok h
  rw [run_declare] at h7
  cases h7
  have hW4 : s4.decls.Written := (show s4.decls = s.decls from hs4.decls) ▸ hs.decls
  generalize hr : (⟨s4.decls.nextId, t.value, gs, peekNamesAt s4.tokens s4.pos⟩ : EnumRef) = ref at h
  -- the table with the enum declared under its name
  have href : (Ty.enum ref).Unmarked := hr ▸ Ty.unmarked_enum.2 ⟨ht.2 ht.1, hgs⟩
  have hD1 : (s4.decls.fresh.2.setType t.value (.enum ref)).Written :=
    hW4.fresh.setType ⟨href, by simp [Ty.ifaceRefs]⟩
  obtain ⟨ctors, s8, hs8, hctors, h⟩ := (plainly_withGenerics hgs
    (plainly_delimited (ctorEntry_spells hD1 fuel) _ fuel [] (fun _ h => by cases h))).first
    (s := ⟨s4.tokens, s4.pos, s4.decls.fresh.2.setType t.value (.enum ref), s4.generics⟩)
    ⟨hs4.idents, hs4.generics, rfl⟩ h
  obtain ⟨_, s9, h9, h⟩ := run_bind_eq_ok h
  obtain ⟨rfl, rfl⟩ := run_pure_eq_ok h
  -- each round takes a number and binds a constructor, which names no new interface
  obtain ⟨hs9, -⟩ : Plainly (fun d => d.Written ∧
      ∀ r ∈ (s4.decls.fresh.2.setType t.value (.enum ref)).refs, r ∈ d.refs) s9 ∧ True := by
    refine Preserves.forIn (fun x hx _ => ?_) s8 _ s9
      ⟨hs8.idents, hs8.generics, hs8.decls ▸ hD1, hs8.decls ▸ fun _ hr => hr⟩ h9
    obtain ⟨c, params⟩ := x
    obtain ⟨hc, hps⟩ := hctors _ hx
    dsimp only
    refine Preserves.bind (plainly_freshId fun d hd => ⟨hd.1.fresh, hd.2⟩) fun _ _ => ?_
    refine Preserves.bind (plainly_declare fun d hd => ⟨hd.1.set hc ?_, hd.2⟩) fun _ _ =>
      Preserves.pure trivial
    refine Decls.Spells.mono ⟨Ty.unmarked_ctor.2 ⟨fun p hp => (hps p hp).unmarked, href,
      hgs⟩, fun r hr' => ?_⟩ hd.2
    simp only [Ty.ifaceRefs, List.append_nil] at hr'
    obtain ⟨p, hp, hr'⟩ := Ty.mem_ifaceRefsList.1 hr'
    exact (hps p hp).refs r hr'
  exact ⟨⟨hs9.idents, hs9.generics, hs9.decls.1⟩, (fun _ h => by cases h)⟩

/-- A reader that keeps the table written, and changes it only by declarations, keeps every
interface the table had. -/
theorem Preserves.keepRefs {β : Type} {r : Reader β} {P : β → Prop}
    (h : Preserves (Plainly Decls.Written) r P) (hr : Records r) (D : Decls) :
    Preserves (Plainly fun d => d.Written ∧ ∀ x ∈ D.refs, x ∈ d.refs) r P := by
  intro s a s' hs he
  obtain ⟨hs', ha⟩ := h s a s' ⟨hs.idents, hs.generics, hs.decls.1⟩ he
  exact ⟨⟨hs'.idents, hs'.generics, hs'.decls, fun x hx =>
    Decls.refs_subset_of_steps (hr s a s' he) x (hs.decls.2 x hx)⟩, ha⟩

/-- A capitalised token is an identifier. -/
theorem Token.kind_of_isCapitalised {t : Token} (h : t.isCapitalised = true) :
    t.kind = .identifier := by
  simp only [Token.isCapitalised, Bool.and_eq_true, beq_iff_eq] at h
  exact h.1

/-! ## Expressions and items -/

open Node

/-- A pattern names a constructor and binds plain names. -/
theorem pattern_named {W : Decls → Prop} (fuel : Nat) :
    Preserves (Plainly W) (pattern fuel) Named := by
  unfold pattern
  refine Preserves.bind plainly_current fun t ht => ?_
  dsimp only
  split
  · exact Preserves.throw_bind
  rename_i hcap
  have hc : Ty.PlainName t.value :=
    ht (Token.kind_of_isCapitalised (by simpa using hcap))
  refine Preserves.bind plainly_advance fun _ _ => Preserves.bind (plainly_eat _) fun _ _ => ?_
  split
  · exact Preserves.bind (plainly_delimited plainly_binding _ fuel [] (fun _ h => by cases h)) fun _ hbs =>
      Preserves.bind (plainly_spanFrom _) fun _ _ => Preserves.pure ⟨hc, hbs⟩
  · exact Preserves.bind (Q := fun bs => ∀ b ∈ bs, Ty.PlainName b.name) (Preserves.pure (fun _ h => by cases h))
      fun _ hbs => Preserves.bind (plainly_spanFrom _) fun _ _ => Preserves.pure ⟨hc, hbs⟩

mutual

/-- **Every expression read names only plain names**, and leaves the table written. -/
theorem expr_written : (fuel : Nat) → (bp : Power) →
    Preserves (Plainly Decls.Written) (expr fuel bp) Named
  | 0, _ => plainly_outOfFuel
  | fuel + 1, bp => by
    unfold expr
    exact Preserves.bind (start_written fuel) fun left h => extend_written fuel bp left h

/-- Operators and calls read after a plainly named left operand build a plainly named node. -/
theorem extend_written : (fuel : Nat) → (bp : Power) → (left : Node) → left.Named →
    Preserves (Plainly Decls.Written) (extend fuel bp left) Named
  | 0, _, _, _ => plainly_outOfFuel
  | fuel + 1, bp, left, hl => by
    unfold extend
    refine Preserves.bind plainly_current fun _ _ => ?_
    dsimp only
    split
    · exact Preserves.pure hl
    split
    · exact Preserves.bind (callExpr_written fuel left hl) fun n h => extend_written fuel bp n h
    · exact Preserves.bind (binaryExpr_written fuel left _ hl) fun n h => extend_written fuel bp n h

/-- The start of an expression is plainly named. -/
theorem start_written : (fuel : Nat) → Preserves (Plainly Decls.Written) (start fuel) Named
  | 0 => plainly_outOfFuel
  | fuel + 1 => by
    unfold start
    refine Preserves.bind plainly_current fun _ _ => ?_
    split
    · exact primary_written fuel
    · exact primary_written fuel
    · exact primary_written fuel
    · exact prefixExpr_written fuel
    · exact prefixExpr_written fuel
    · exact grouping_written fuel
    · exact listExpr_written fuel
    · exact blockExpr_written fuel
    · exact ifExpr_written fuel
    · exact letExpr_written fuel
    · exact matchExpr_written fuel
    · exact plainly_unexpected

/-- A literal, a name or a constructor expression is plainly named. -/
theorem primary_written : (fuel : Nat) → Preserves (Plainly Decls.Written) (primary fuel) Named
  | 0 => plainly_outOfFuel
  | fuel + 1 => by
    unfold primary
    refine Preserves.bind plainly_current fun t ht => ?_
    split
    · split
      · exact Preserves.throw
      · exact Preserves.bind plainly_advance fun _ _ => Preserves.pure trivial
    · rename_i hk
      split
      · exact constructorExpr_written fuel
      · exact Preserves.bind plainly_advance fun _ _ => Preserves.pure (ht hk)
    · exact Preserves.bind plainly_advance fun _ _ => Preserves.pure trivial
    · exact plainly_unexpected

/-- The arguments of a call are plainly named. -/
theorem arguments_written : (fuel : Nat) →
    Preserves (Plainly Decls.Written) (arguments fuel) ListNamed
  | 0 => plainly_outOfFuel
  | fuel + 1 => by
    unfold arguments
    refine Preserves.bind (plainly_expect _) fun _ _ => ?_
    exact (plainly_delimited (expr_written fuel .default) .closeParen fuel [] (fun _ h => by cases h)).imp
      fun _ h => listNamed_iff.2 h

/-- A constructor expression names a plain constructor and plainly named arguments. -/
theorem constructorExpr_written : (fuel : Nat) →
    Preserves (Plainly Decls.Written) (constructorExpr fuel) Named
  | 0 => plainly_outOfFuel
  | fuel + 1 => by
    unfold constructorExpr
    refine Preserves.bind (plainly_expect _) fun t ht => Preserves.bind plainly_current fun _ _ => ?_
    extract_lets jp
    have hk : ∀ args, ListNamed args → Preserves (Plainly Decls.Written) (jp args) Named :=
      fun _ h => Preserves.bind (plainly_spanFrom _) fun _ _ => Preserves.pure ⟨ht.2 ht.1, h⟩
    split
    · exact Preserves.bind (arguments_written fuel) hk
    · exact Preserves.bind (Preserves.pure trivial) hk

/-- A binary operation on a plainly named left operand is plainly named. -/
theorem binaryExpr_written : (fuel : Nat) → (left : Node) → (bp : Power) → left.Named →
    Preserves (Plainly Decls.Written) (binaryExpr fuel left bp) Named
  | 0, _, _, _ => plainly_outOfFuel
  | fuel + 1, left, bp, hl => by
    unfold binaryExpr
    refine Preserves.bind plainly_advance fun _ _ => ?_
    exact Preserves.bind (expr_written fuel bp) fun _ hr => Preserves.pure ⟨hl, hr⟩

/-- A prefix operation is plainly named. -/
theorem prefixExpr_written : (fuel : Nat) → Preserves (Plainly Decls.Written) (prefixExpr fuel) Named
  | 0 => plainly_outOfFuel
  | fuel + 1 => by
    unfold prefixExpr
    refine Preserves.bind plainly_advance fun _ _ => ?_
    exact Preserves.bind (expr_written fuel .unary) fun _ h => Preserves.pure h

/-- An expression in parentheses is plainly named. -/
theorem grouping_written : (fuel : Nat) → Preserves (Plainly Decls.Written) (grouping fuel) Named
  | 0 => plainly_outOfFuel
  | fuel + 1 => by
    unfold grouping
    refine Preserves.bind plainly_advance fun _ _ => ?_
    exact Preserves.bind (expr_written fuel .default) fun _ h =>
      Preserves.bind (plainly_expect _) fun _ _ => Preserves.pure h

/-- A call of a plainly named callee is plainly named. -/
theorem callExpr_written : (fuel : Nat) → (callee : Node) → callee.Named →
    Preserves (Plainly Decls.Written) (callExpr fuel callee) Named
  | 0, _, _ => plainly_outOfFuel
  | fuel + 1, callee, hc => by
    unfold callExpr
    exact Preserves.bind (arguments_written fuel) fun _ h =>
      Preserves.bind (plainly_spanFrom _) fun _ _ => Preserves.pure ⟨hc, h⟩

/-- A list expression is plainly named. -/
theorem listExpr_written : (fuel : Nat) → Preserves (Plainly Decls.Written) (listExpr fuel) Named
  | 0 => plainly_outOfFuel
  | fuel + 1 => by
    unfold listExpr
    refine Preserves.bind plainly_advance fun _ _ => ?_
    exact Preserves.bind (plainly_delimited (expr_written fuel .default) .closeBracket fuel [] (fun _ h => by cases h))
      fun _ h => Preserves.bind (plainly_spanFrom _) fun _ _ => Preserves.pure (listNamed_iff.2 h)

/-- A block is plainly named. -/
theorem blockExpr_written : (fuel : Nat) → Preserves (Plainly Decls.Written) (blockExpr fuel) Named
  | 0 => plainly_outOfFuel
  | fuel + 1 => by
    unfold blockExpr
    refine Preserves.bind (plainly_expect _) fun _ _ => ?_
    refine Preserves.bind (blockItems_written fuel [] (fun _ h => by cases h)) fun _ h => ?_
    exact Preserves.bind (plainly_expect _) fun _ _ => Preserves.bind (plainly_spanFrom _)
      fun _ _ => Preserves.pure (listNamed_iff.2 h)

/-- The items of a block, read after plainly named ones, are plainly named. -/
theorem blockItems_written : (fuel : Nat) → (acc : List Node) → (∀ n ∈ acc, n.Named) →
    Preserves (Plainly Decls.Written) (blockItems fuel acc) (∀ n ∈ ·, n.Named)
  | 0, _, _ => plainly_outOfFuel
  | fuel + 1, acc, hacc => by
    unfold blockItems
    refine Preserves.bind plainly_current fun _ _ => ?_
    split
    · exact Preserves.pure fun n hn => hacc n (List.mem_reverse.1 hn)
    split
    · exact plainly_unexpected
    refine Preserves.bind (item_written fuel) fun xs hxs => blockItems_written fuel _ ?_
    intro n hn
    rcases List.mem_append.1 hn with h | h
    · exact hxs n (List.mem_reverse.1 h)
    · exact hacc n h

/-- An `if`, with its `else` branch if any, is plainly named. -/
theorem ifExpr_written : (fuel : Nat) → Preserves (Plainly Decls.Written) (ifExpr fuel) Named
  | 0 => plainly_outOfFuel
  | fuel + 1 => by
    unfold ifExpr
    refine Preserves.bind plainly_advance fun _ _ => ?_
    refine Preserves.bind (expr_written fuel .default) fun test ht => ?_
    refine Preserves.bind (blockExpr_written fuel) fun thenBody htb => ?_
    refine Preserves.bind (plainly_eat _) fun _ _ => ?_
    extract_lets jp
    -- the `else` branch, if any, is an `if` or a block
    have hk : ∀ elseBody : Option Node, (∀ e, elseBody = some e → e.Named) →
        Preserves (Plainly Decls.Written) (jp elseBody) Named := fun elseBody he => by
      refine Preserves.bind (plainly_spanFrom _) fun _ _ => Preserves.pure ?_
      cases elseBody with
      | none => exact ⟨ht, htb⟩
      | some e => exact ⟨ht, htb, he e rfl⟩
    have hsome : ∀ {r : Reader Node}, Preserves (Plainly Decls.Written) r Named →
        Preserves (Plainly Decls.Written) (some <$> r) (fun o => ∀ e, o = some e → e.Named) :=
      fun {r} hr s o s' hs he => by
        rw [StateT.run_map] at he
        rcases hrun : r.run s with _ | ⟨n, s''⟩
        · rw [hrun] at he
          cases he
        · rw [hrun] at he
          cases he
          obtain ⟨hs', hn⟩ := hr s n s'' hs hrun
          exact ⟨hs', fun e he => by cases he; exact hn⟩
    split
    · refine Preserves.bind plainly_current fun _ _ => ?_
      split
      · exact Preserves.bind (hsome (ifExpr_written fuel)) hk
      · exact Preserves.bind (hsome (blockExpr_written fuel)) hk
    · exact Preserves.bind (Preserves.pure (fun _ h => by cases h)) hk

/-- An assignment binds a plain name or a pattern of plain names to a plainly named value. -/
theorem assignment_written : (fuel : Nat) → Preserves (Plainly Decls.Written) (assignment fuel) Named
  | 0 => plainly_outOfFuel
  | fuel + 1 => by
    unfold assignment
    refine Preserves.bind plainly_position fun _ _ => Preserves.bind plainly_current fun _ _ => ?_
    extract_lets jp
    have hk : ∀ left : Node, left.Named → Preserves (Plainly Decls.Written) (jp left) Named :=
      fun _ hl => Preserves.bind (plainly_expect _) fun _ _ =>
        Preserves.bind (expr_written fuel .default) fun _ hv =>
          Preserves.bind (plainly_spanFrom _) fun _ _ => Preserves.pure ⟨hl, hv⟩
    -- the left side is a pattern or a name
    split
    · exact Preserves.bind (pattern_named fuel) hk
    · exact Preserves.bind plainly_binding fun _ hb => Preserves.bind (Preserves.pure hb) hk

/-- The assignments after the first of a `let` are plainly named. -/
theorem moreAssignments_written : (fuel : Nat) → (acc : List Node) → (∀ n ∈ acc, n.Named) →
    Preserves (Plainly Decls.Written) (moreAssignments fuel acc) (∀ n ∈ ·, n.Named)
  | 0, _, _ => plainly_outOfFuel
  | fuel + 1, acc, hacc => by
    unfold moreAssignments
    refine Preserves.bind (plainly_eat _) fun _ _ => ?_
    split
    · refine Preserves.bind (assignment_written fuel) fun a ha => moreAssignments_written fuel _ ?_
      intro n hn
      rcases List.mem_cons.1 hn with rfl | h
      · exact ha
      · exact hacc n h
    · exact Preserves.pure fun n hn => hacc n (List.mem_reverse.1 hn)

/-- A `let` is plainly named. -/
theorem letExpr_written : (fuel : Nat) → Preserves (Plainly Decls.Written) (letExpr fuel) Named
  | 0 => plainly_outOfFuel
  | fuel + 1 => by
    unfold letExpr
    refine Preserves.bind plainly_advance fun _ _ => ?_
    refine Preserves.bind (assignment_written fuel) fun a ha => ?_
    refine Preserves.bind (moreAssignments_written fuel [] (fun _ h => by cases h)) fun rest hrest => ?_
    refine Preserves.bind (blockExpr_written fuel) fun body hb =>
      Preserves.bind (plainly_spanFrom _) fun _ _ => ?_
    refine Preserves.pure ⟨listNamed_iff.2 fun n hn => ?_, hb⟩
    rcases List.mem_cons.1 hn with rfl | h
    · exact ha
    · exact hrest n h

/-- A case of a `match` is plainly named. -/
theorem caseExpr_written : (fuel : Nat) → Preserves (Plainly Decls.Written) (caseExpr fuel) Named
  | 0 => plainly_outOfFuel
  | fuel + 1 => by
    unfold caseExpr
    refine Preserves.bind plainly_position fun _ _ => ?_
    refine Preserves.bind (pattern_named fuel) fun _ hp => Preserves.bind (plainly_expect _) fun _ _ => ?_
    exact Preserves.bind (expr_written fuel .default) fun _ hb =>
      Preserves.bind (plainly_spanFrom _) fun _ _ => Preserves.pure ⟨hp, hb⟩

/-- The cases of a `match`, read after plainly named ones, are plainly named. -/
theorem cases_written : (fuel : Nat) → (acc : List Node) → (∀ n ∈ acc, n.Named) →
    Preserves (Plainly Decls.Written) (cases fuel acc) (∀ n ∈ ·, n.Named)
  | 0, _, _ => plainly_outOfFuel
  | fuel + 1, acc, hacc => by
    unfold cases
    refine Preserves.bind plainly_current fun _ _ => ?_
    split
    · exact Preserves.pure fun n hn => hacc n (List.mem_reverse.1 hn)
    refine Preserves.bind (caseExpr_written fuel) fun c hc => Preserves.bind (plainly_eat _) fun _ _ => ?_
    refine cases_written fuel _ fun n hn => ?_
    rcases List.mem_cons.1 hn with rfl | h
    · exact hc
    · exact hacc n h

/-- A `match` is plainly named. -/
theorem matchExpr_written : (fuel : Nat) → Preserves (Plainly Decls.Written) (matchExpr fuel) Named
  | 0 => plainly_outOfFuel
  | fuel + 1 => by
    unfold matchExpr
    refine Preserves.bind plainly_advance fun _ _ => ?_
    refine Preserves.bind (expr_written fuel .default) fun _ hv => Preserves.bind (plainly_expect _) fun _ _ => ?_
    refine Preserves.bind (cases_written fuel [] (fun _ h => by cases h)) fun _ hcs => Preserves.bind (plainly_expect _) fun _ _ => ?_
    exact Preserves.bind (plainly_spanFrom _) fun _ _ => Preserves.pure ⟨hv, listNamed_iff.2 hcs⟩

/-- Each item of a program is plainly named and leaves the table written. -/
theorem item_written : (fuel : Nat) → Preserves (Plainly Decls.Written) (item fuel) (∀ n ∈ ·, n.Named)
  | 0 => plainly_outOfFuel
  | fuel + 1 => by
    unfold item
    refine Preserves.bind plainly_current fun _ _ => ?_
    split
    · exact fnDecl_written fuel
    · exact externDecl_written fuel
    · exact interfaceDecl_written fuel
    · exact implDecl_written fuel
    · exact enumDecl_written fuel
    · refine Preserves.bind (expr_written fuel .default) fun e he => Preserves.bind (plainly_eat _) fun _ _ => ?_
      exact Preserves.pure fun n hn => by
        rcases List.mem_singleton.1 hn with rfl
        exact he

/-- A function's signature is read with the table it is bound in; its body may declare
interfaces of its own, which keep the signature spelt. -/
theorem fnDecl_written : (fuel : Nat) →
    Preserves (Plainly Decls.Written) (fnDecl fuel) (∀ n ∈ ·, n.Named)
  | 0 => plainly_outOfFuel
  | fuel + 1 => by
    intro s ns s' hs h
    unfold fnDecl at h
    obtain ⟨_, s1, hs1, -, h⟩ := plainly_advance.first hs.at_decls h
    obtain ⟨⟨params, sig⟩, s2, hs2, ⟨hparams, hsig⟩, h⟩ := (signature_spells hs.decls fuel).first hs1 h
    have hdecls : s2.decls = s.decls := hs2.decls
    obtain ⟨body, s3, h3, h⟩ := run_bind_eq_ok h
    obtain ⟨hs3, hbody⟩ := blockExpr_written fuel s2 body s3
      ⟨hs2.idents, hs2.generics, hdecls ▸ hs.decls⟩ h3
    have hgrow := Decls.refs_subset_of_steps (blockExpr_records fuel s2 body s3 h3)
    rw [hdecls] at hgrow
    obtain ⟨_, s4, h4, h⟩ := run_bind_eq_ok h
    rw [run_declare] at h4
    cases h4
    obtain ⟨_, s5, hs5, -, h⟩ := (plainly_spanFrom _).first
      (s := ⟨s3.tokens, s3.pos, s3.decls.set sig.name sig.toTy, s3.generics⟩)
      ⟨hs3.idents, hs3.generics, hs3.decls.set hsig.of_fn.1 (hsig.mono hgrow)⟩ h
    obtain ⟨rfl, rfl⟩ := run_pure_eq_ok h
    refine ⟨hs5, fun n hn => ?_⟩
    rcases List.mem_singleton.1 hn with rfl
    exact ⟨hsig.of_fn.1, hparams, hbody⟩

/-- **An implementation block is plainly named and leaves the table written**: the type it
implements for is spelt, its dispatch key is a plain name, and the implementation it records
declares no interface. -/
theorem implDecl_written : (fuel : Nat) →
    Preserves (Plainly Decls.Written) (implDecl fuel) (∀ n ∈ ·, n.Named)
  | 0 => plainly_outOfFuel
  | fuel + 1 => by
    intro s ns s' hs h
    unfold implDecl at h
    obtain ⟨_, s1, hs1, -, h⟩ := plainly_advance.first hs.at_decls h
    obtain ⟨t, s2, hs2, -, h⟩ := (plainly_expect _).first hs1 h
    obtain ⟨_, s3, h3, h⟩ := run_bind_eq_ok h
    obtain ⟨rfl, rfl⟩ := run_get_eq_ok h3
    split at h
    · rename_i r hr
      obtain ⟨_, s4, h4, h⟩ := run_bind_eq_ok h
      obtain ⟨rfl, rfl⟩ := run_get_eq_ok h4
      split at h
      · rename_i i hi
        obtain ⟨_, s5, h5, h⟩ := run_bind_eq_ok h
        obtain ⟨rfl, rfl⟩ := run_pure_eq_ok h5
        dsimp only at h
        -- the interface is one the table declares, with spelt methods
        have hdecls : s2.decls = s.decls := hs2.decls
        have hmethods : ∀ m ∈ i.methods, s.decls.Spells m.2.toTy :=
          hs.decls.methods i (hdecls ▸ List.mem_of_find?_eq_some hi)
        obtain ⟨_, s3, hs3, -, h⟩ := (plainly_expect _).first hs2 h
        obtain ⟨_, s4, hs4, -, h⟩ := plainly_position.first hs3 h
        obtain ⟨ty, s5, hs5, hty, h⟩ := (typeExpr_spells hs.decls fuel).first hs4 h
        obtain ⟨_, s6, hs6, -, h⟩ := (plainly_expect _).first hs5 h
        split at h
        · rename_i k hk
          obtain ⟨_, s7, h7, h⟩ := run_bind_eq_ok h
          obtain ⟨rfl, rfl⟩ := run_pure_eq_ok h7
          obtain ⟨_, s7, h7, h⟩ := run_bind_eq_ok h
          obtain ⟨rfl, rfl⟩ := run_get_eq_ok h7
          split at h
          · obtain ⟨_, s8, h8, h⟩ := run_bind_eq_ok h
            cases h8
          obtain ⟨_, s8, h8, h⟩ := run_bind_eq_ok h
          rw [run_declare] at h8
          cases h8
          -- the methods are read in a table that keeps every interface it had
          have hkeep : Plainly (fun d => d.Written ∧ ∀ x ∈ s.decls.refs, x ∈ d.refs)
              ⟨s6.tokens, s6.pos, s6.decls.addImpl i.ref.id k ty, s6.generics⟩ := by
            have hdecls6 : s6.decls = s.decls := hs6.decls
            refine ⟨hs6.idents, hs6.generics, hdecls6 ▸ hs.decls.addImpl _ _ _, fun x hx => ?_⟩
            rw [hdecls6, Decls.refs_addImpl]
            exact hx
          obtain ⟨_, s9, hs9, -, h⟩ := (plainly_expect _).first hkeep h
          obtain ⟨fns, s10, hs10, hfns, h⟩ := (implMethods_written fuel i ty k [] s.decls hty
            hmethods (Ty.plainName_of_dispatchKey hty.unmarked.plain hk) (fun _ h => by cases h)).first hs9 h
          obtain ⟨_, s11, hs11, -, h⟩ := (plainly_expect _).first hs10 h
          obtain ⟨rfl, rfl⟩ := run_pure_eq_ok h
          exact ⟨⟨hs11.idents, hs11.generics, hs11.decls.1⟩, hfns⟩
        · obtain ⟨_, s7, h7, h⟩ := run_bind_eq_ok h
          cases h7
      · obtain ⟨_, s5, h5, h⟩ := run_bind_eq_ok h
        cases h5
    · obtain ⟨_, s5, h5, h⟩ := run_bind_eq_ok h
      cases h5

/-- The methods of an implementation block are plainly named, and the table keeps the interfaces it
had when the block began. -/
theorem implMethods_written : (fuel : Nat) → (iface : Iface) → (ty : Ty) → (key : String) →
    (acc : List Node) → (D : Decls) → D.Spells ty → (∀ m ∈ iface.methods, D.Spells m.2.toTy) →
    Ty.PlainName key → (∀ n ∈ acc, n.Named) →
    Preserves (Plainly fun d => d.Written ∧ ∀ x ∈ D.refs, x ∈ d.refs)
      (implMethods fuel iface ty key acc) (∀ n ∈ ·, n.Named)
  | 0, _, _, _, _, _, _, _, _, _ => plainly_outOfFuel
  | fuel + 1, iface, ty, key, acc, D, hty, hm, hkey, hacc => by
    unfold implMethods
    refine Preserves.bind plainly_current fun _ _ => ?_
    split
    · exact Preserves.pure fun n hn => hacc n (List.mem_reverse.1 hn)
    refine Preserves.bind (plainly_expect _) fun _ _ => Preserves.bind (plainly_expect _) fun m _ => ?_
    extract_lets _ jp
    -- a method of the interface is spelt in the table the implementation started from
    have hk : ∀ method, D.Spells method.toTy →
        Preserves (Plainly fun d => d.Written ∧ ∀ x ∈ D.refs, x ∈ d.refs) (jp method)
          (∀ n ∈ ·, n.Named) := fun method hmethod => by
      refine Preserves.bind (plainly_expect _) fun _ _ =>
        Preserves.bind (plainly_delimited plainly_binding _ fuel [] (fun _ h => by cases h)) fun params hps => ?_
      refine Preserves.bind ((blockExpr_written fuel).keepRefs (blockExpr_records fuel) D)
        fun body hb => ?_
      have hsig := Decls.Spells.implSig (i := iface) hty hmethod hkey
      refine Preserves.bind (plainly_declare fun d hd => ⟨hd.1.set hsig.of_fn.1 (hsig.mono hd.2),
        hd.2⟩) fun _ _ => Preserves.bind (plainly_spanFrom _) fun _ _ => ?_
      refine implMethods_written fuel iface ty key _ D hty hm hkey fun n hn => ?_
      rcases List.mem_cons.1 hn with rfl | hn
      · exact ⟨hsig.of_fn.1, hps, hb⟩
      · exact hacc n hn
    split
    · next method hmethod =>
      obtain ⟨l₁, l₂, hl, -⟩ := List.lookup_eq_some_iff.1 hmethod
      have hmem : (m.value, method) ∈ iface.methods := by
        rw [hl]
        exact List.mem_append_right _ List.mem_cons_self
      exact Preserves.bind (Preserves.pure (hm _ hmem)) hk
    · exact Preserves.throw_bind

end

/-- The items of a program, read after plainly named ones, are plainly named and leave the table
written. -/
theorem programItems_written : (fuel : Nat) → (acc : List Node) → (∀ n ∈ acc, n.Named) →
    Preserves (Plainly Decls.Written) (programItems fuel acc) (∀ n ∈ ·, n.Named)
  | 0, _, _ => plainly_outOfFuel
  | fuel + 1, acc, hacc => by
    unfold programItems
    refine Preserves.bind plainly_current fun _ _ => ?_
    split
    · exact Preserves.pure fun n hn => hacc n (List.mem_reverse.1 hn)
    refine Preserves.bind (item_written fuel) fun xs hxs => programItems_written fuel _ ?_
    intro n hn
    rcases List.mem_append.1 hn with h | h
    · exact hxs n (List.mem_reverse.1 h)
    · exact hacc n h

/-- The end mark that reading adds is the only token it adds. -/
theorem mem_withEnd {toks : Array Token} {t : Token} (h : t ∈ (withEnd toks).toList) :
    t ∈ toks.toList ∨ t.kind = .eof := by
  unfold withEnd at h
  split at h
  · split at h
    · exact .inl h
    · rcases List.mem_append.1 (Array.toList_push ▸ h) with h | h
      · exact .inl h
      · exact .inr (List.mem_singleton.1 h ▸ rfl)
  · rcases List.mem_append.1 (Array.toList_push ▸ h) with h | h
    · exact .inl h
    · exact .inr (List.mem_singleton.1 h ▸ rfl)

/-- **Reading a program writes only plain names.** From tokens whose identifiers hold plain
names and a written table, every name the tree looks up or binds is plain, and the table
read is written. -/
theorem program_written {toks : Array Token} {d : Decls} {prog : Program}
    (htoks : ∀ t ∈ toks.toList, t.kind = .identifier → Ty.PlainName t.value) (hd : d.Written)
    (h : program toks d = .ok prog) : prog.body.Named ∧ prog.decls.Written := by
  -- an identifier token of the list read is one of the tokens given
  have hstart : Plainly Decls.Written ⟨withEnd toks, 0, d, []⟩ := by
    refine ⟨fun i hi => ?_, (fun _ h => by cases h), hd⟩
    have hmem := tokenAt_mem (by rw [hi]; decide)
    rcases mem_withEnd hmem with hmem | heof
    · exact htoks _ hmem hi
    · exact absurd (hi.symm.trans heof) (by decide)
  unfold program at h
  dsimp only at h
  generalize hr : StateT.run _ _ = r at h
  rcases r with e | ⟨p, s'⟩
  · cases h
  · cases h
    refine ((Preserves.bind (P := fun p : Program => p.body.Named ∧ p.decls.Written)
      (programItems_written _ [] (fun _ h => by cases h)) fun items h => ?_) _ _ _ hstart hr).2
    exact Preserves.bind (plainly_spanFrom _) fun _ _ => Preserves.bind plainly_get
      fun _ hst => Preserves.pure ⟨listNamed_iff.2 h, hst.decls⟩

end Parse

/-- **The identifiers a scan reads hold plain names.** -/
theorem Token.scan_plain {src : String} {toks : Array Token} (h : Token.scan src = .ok toks) :
    ∀ t ∈ toks.toList, t.kind = .identifier → Ty.PlainName t.value :=
  fun t ht hk => Ty.plainName_of_isIdentifier (Token.scan_identifiers h t ht hk)

/-- **A program read from a source names only plain names**, and the table it declares is
written. -/
theorem Program.written_of_source {src : String} {toks : Array Token} {prog : Program}
    (hscan : Token.scan src = .ok toks) (h : Parse.program toks = .ok prog) :
    prog.body.Named ∧ prog.decls.Written :=
  Parse.program_written (Token.scan_plain hscan) Decls.written_initial h

end Verve
