import Verve.Proofs.SettledKept
import Verve.Proofs.Translation
import Verve.Proofs.Written

/-!
# Interfaces keep their declared parameters through a check

`View.queries_keep_settled` asks that every interface named in the scopes carry the
parameter its declaration gives it (`Ty.ParamsBy`). Here that is shown of every store a check
of a read program passes through, with the parameters of the program's own table.

| where | what holds | why |
|---|---|---|
| the read table | every type names interfaces by `Decls.paramOf` | `Decls.Written.refsBy` |
| the check's first store | its root frame binds the table's types | `Decls.Written.root_refsBy` |
| each step of a check | the bound types still name them so | `Check.Translation.params_steps` |
| a whole check | the same, and the type it gives | `Check.typeOf_keeps_refs` |

A read table gives each interface a number taken by no other, and every type in it names only
interfaces it declares, so the parameter of each is the one the table holds under its number.
Checking keeps the property of the owner of each method too (`Ty.RefsBy`): opening a call binds
the owner's parameter to the interface. The check side is the translation that changes nothing
(`Check.Translation.keeping`): a check simulates itself while an invariant of its stores holds,
so an invariant that every step keeps is kept by every check.
-/

namespace Verve

namespace Ty

variable {gen : Nat → String}

/-- Every interface the type names, the owner of each function type in it included, carries
the parameter `gen` gives the interface's number. -/
def RefsBy (gen : Nat → String) (t : Ty) : Prop := ∀ r ∈ t.ifaceRefs, r.generic = gen r.id

theorem forall_mem_ifaceRefsList {P : IfaceRef → Prop} {ts : List Ty} :
    (∀ r ∈ ifaceRefsList ts, P r) ↔ ∀ t ∈ ts, ∀ r ∈ t.ifaceRefs, P r := by
  simp only [mem_ifaceRefsList, forall_exists_index, and_imp]
  exact ⟨fun h t ht r hr => h r t ht hr, fun h r t ht hr => h t ht r hr⟩

@[simp] theorem refsBy_generic {x : String} : (Ty.generic x).RefsBy gen := by
  simp [RefsBy, ifaceRefs]

@[simp] theorem refsBy_iface {r : IfaceRef} : (Ty.iface r).RefsBy gen ↔ r.generic = gen r.id := by
  simp [RefsBy, ifaceRefs]

theorem refsBy_app {h : Ty} {as : List Ty} :
    (Ty.app h as).RefsBy gen ↔ h.RefsBy gen ∧ ∀ t ∈ as, t.RefsBy gen := by
  simp only [RefsBy, ifaceRefs, List.mem_append, or_imp, forall_and, forall_mem_ifaceRefsList]

theorem refsBy_fn {n : String} {ps : List Ty} {r : Ty} {gs : List String} {o : Option IfaceRef} :
    (Ty.fn n ps r gs o).RefsBy gen ↔
      (∀ t ∈ ps, t.RefsBy gen) ∧ r.RefsBy gen ∧ ∀ x ∈ o, x.generic = gen x.id := by
  simp only [RefsBy, ifaceRefs, List.mem_append, or_imp, forall_and, forall_mem_ifaceRefsList,
    Option.mem_toList, Option.mem_def, and_assoc]

theorem refsBy_ctor {i : Nat} {n : String} {ps : List Ty} {r : Ty} {gs : List String} :
    (Ty.ctor i n ps r gs).RefsBy gen ↔ (∀ t ∈ ps, t.RefsBy gen) ∧ r.RefsBy gen := by
  simp only [RefsBy, ifaceRefs, List.mem_append, or_imp, forall_and, forall_mem_ifaceRefsList]

/-- Naming interfaces by `gen` is a property that the parts of a type inherit, so simplifying
and matching keep it. -/
theorem refsBy_inherited (gen : Nat → String) : Inherited (RefsBy gen) where
  app _ _ := refsBy_app
  fn _ _ _ _ _ h := ⟨(refsBy_fn.1 h).1, (refsBy_fn.1 h).2.1⟩

mutual

/-- A type that names every interface by `gen`, owners included, has the parameters
`ParamsBy` asks for. -/
theorem paramsBy_of_refsBy : (t : Ty) → t.RefsBy gen → t.ParamsBy gen
  | .basic _, _ | .generic _, _ | .enum _, _ | .data _, _ => trivial
  | .app h as, ht => by
    rw [refsBy_app] at ht
    exact ⟨paramsBy_of_refsBy h ht.1, paramsByList_of_refsBy as ht.2⟩
  | .fn _ ps r _ _, ht => by
    rw [refsBy_fn] at ht
    exact ⟨paramsByList_of_refsBy ps ht.1, paramsBy_of_refsBy r ht.2.1⟩
  | .iface r, ht => refsBy_iface.1 ht
  | .ctor _ _ ps r _, ht => by
    rw [refsBy_ctor] at ht
    exact ⟨paramsByList_of_refsBy ps ht.1, paramsBy_of_refsBy r ht.2⟩

theorem paramsByList_of_refsBy : (ts : List Ty) → (∀ t ∈ ts, t.RefsBy gen) → ParamsByList gen ts
  | [], _ => trivial
  | t :: ts, h =>
    ⟨paramsBy_of_refsBy t (h t List.mem_cons_self),
      paramsByList_of_refsBy ts fun u hu => h u (List.mem_cons_of_mem _ hu)⟩

end

end Ty

/-- Scopes whose bound types name every interface by `gen` meet the assumption of
`View.queries_keep_settled`. -/
theorem Scopes.BindsAll.paramsBy {s : Scopes} {gen : Nat → String}
    (h : s.BindsAll (Ty.RefsBy gen)) : s.BindsAll (Ty.ParamsBy gen) :=
  fun t ht => Ty.paramsBy_of_refsBy t (h t ht)

/-- The types the root frame of a table binds are those of its bindings. -/
theorem Scopes.boundTypes_ofRoot (binds : List (String × Ty)) :
    (Scopes.ofRoot binds).boundTypes = binds.map (·.2) := by
  simp [Scopes.boundTypes, Scopes.ofRoot]

namespace Decls

variable {d : Decls}

/-- The parameter a table gives the interface of a number: that of the interface declared
under the number, or nothing where none is. -/
def paramOf (d : Decls) (id : Nat) : String := ((d.iface? id).map (·.ref.generic)).getD ""

/-- In a read table the interface found under the number of a declared one is that one, since
no two share a number. -/
theorem Written.paramOf_ref (h : d.Written) {r : IfaceRef} (hr : r ∈ d.refs) :
    d.paramOf r.id = r.generic := by
  obtain ⟨i, hi, rfl⟩ := List.mem_map.1 hr
  obtain ⟨j, hj⟩ : ∃ j, d.iface? i.ref.id = some j :=
    Option.isSome_iff_exists.1 (List.find?_isSome.2 ⟨i, hi, by simp⟩)
  have hjmem : j ∈ d.ifaces := List.mem_of_find?_eq_some hj
  have hjid : j.ref.id = i.ref.id := by simpa using List.find?_some hj
  have hji : j = i := List.inj_on_of_nodup_map h.nodup hjmem hi hjid
  simp [paramOf, hj, hji]

/-- **Every type a read table spells names its interfaces by their declared parameters.** -/
theorem Written.refsBy (h : d.Written) {t : Ty} (ht : d.Spells t) : t.RefsBy d.paramOf :=
  fun r hr => (h.paramOf_ref (ht.refs r hr)).symm

/-- The root frame a check starts from binds only types that name their interfaces by the
table's parameters. -/
theorem Written.root_refsBy (h : d.Written) : (Scopes.ofRoot d.env).BindsAll (Ty.RefsBy d.paramOf) := by
  intro t ht
  rw [Scopes.boundTypes_ofRoot] at ht
  obtain ⟨b, hb, rfl⟩ := List.mem_map.1 ht
  exact h.refsBy (h.env b hb)

end Decls

/-- A fault renamed by the identity is the fault. -/
theorem Fault.rename_id (f : Fault) : f.rename id = f := by
  cases f <;> simp [Fault.rename, Ty.rename_id]

theorem Located.rename_id (e : Located) : e.rename id = e := by
  simp [Located.rename, Fault.rename_id]

namespace Check

namespace Translation

/-- **The translation that changes nothing.** Both runs are one run, from a store that
satisfies `I` and in a setting that `Fits`; the values it follows are `Good`. A simulation
under it is an invariant: a check keeps `I` when each of its steps does. -/
def keeping (Fits : Setting → Prop) (I : Store → Prop) (Good : Ty → Prop) : Translation where
  name := id
  frame := id
  setting := id
  Fits := Fits
  Stores st st' := st' = st ∧ I st
  Good := Good

section Keeping

variable {Fits : Setting → Prop} {I : Store → Prop} {Good : Ty → Prop}

theorem keeping_ty (t : Ty) : (keeping Fits I Good).ty t = t := Ty.rename_id t

/-- A step that keeps `I` and returns values with `Q` simulates itself, as long as the
translation of its values changes none. -/
theorem keeping_sim {α : Type} {F : α → α} (hF : ∀ a, F a = a) {Q : α → Prop} {m : Check α}
    (h : Spec I m Q) : (keeping Fits I Good).Sim F Q m m := by
  intro σ st st' _ hst
  obtain ⟨hst', hI⟩ := hst
  rw [hst']
  obtain ⟨hI', hQ⟩ := h σ st hI
  refine ⟨⟨rfl, hI'⟩, ?_, hQ⟩
  show (m.exec σ st).1 = (keeping Fits I Good).except F (m.exec σ st).1
  generalize (m.exec σ st).1 = r
  cases r with
  | ok a => simp [except, hF]
  | error e => exact congrArg Except.error (Located.rename_id e).symm

/-- A simulation under `keeping` keeps `I` along the run and gives values with `Q`. -/
theorem Sim.keeps {α : Type} {F : α → α} {Q : α → Prop} {m m' : Check α}
    (h : (keeping Fits I Good).Sim F Q m m') {σ : Setting} (hσ : Fits σ) {st : Store}
    (hst : I st) : I (m.exec σ st).2 ∧ ∀ a, (m.exec σ st).1 = .ok a → Q a := by
  obtain ⟨⟨-, hI⟩, -, hQ⟩ := h σ st st hσ ⟨rfl, hst⟩
  exact ⟨hI, hQ⟩

end Keeping

end Translation

/-! ### Each step keeps interfaces' parameters -/

section Steps

variable (gen : Nat → String)

/-- Every type the scopes bind names its interfaces by `gen`. -/
abbrev BindsRefs (st : Store) : Prop := st.scopes.BindsAll (Ty.RefsBy gen)

theorem spec_lookupName_refs (i : Nat) (x : String) :
    Spec (BindsRefs gen) (lookupName i x) (fun o => ∀ t ∈ o, t.RefsBy gen) :=
  fun _ st hI => ⟨hI, fun o he t ht => by
    rw [exec_lookupName] at he
    cases he
    exact hI.get ht⟩

theorem spec_simp_refs (i : Nat) {t : Ty} (ht : t.RefsBy gen) :
    Spec (BindsRefs gen) (simp i t) (Ty.RefsBy gen) :=
  fun _ st hI => ⟨hI, fun a he => by
    rw [exec_simp] at he
    cases he
    exact hI.simplify (Ty.refsBy_inherited gen) i ht⟩

theorem spec_bindName_refs (i : Nat) (x : String) {t : Ty} (ht : t.RefsBy gen) :
    Spec (BindsRefs gen) (bindName i x t) (fun _ => True) :=
  fun _ _ hI => ⟨hI.set i x ht, fun _ _ => trivial⟩

theorem spec_openFrame_refs (i : Nat) : Spec (BindsRefs gen) (openFrame i) (fun _ => True) :=
  fun _ _ hI => ⟨hI.child i, fun _ _ => trivial⟩

theorem spec_freshGeneric_refs (g : String) :
    Spec (BindsRefs gen) (freshGeneric g) (Ty.RefsBy gen) :=
  fun _ _ hI => ⟨hI, fun a he => by
    rw [exec_freshGeneric] at he
    cases he
    exact Ty.refsBy_generic⟩

theorem spec_unify_refs (i : Nat) (e : Ty) {a : Ty} (ha : a.RefsBy gen) (pos : Nat) :
    Spec (BindsRefs gen) (unify i e a pos) (fun _ => True) := by
  intro σ st hI
  refine ⟨?_, fun _ _ => trivial⟩
  rw [unify, exec_binding, exec_answer_store]
  exact (View.unify_all (v := ⟨st.scopes, i, σ.decls⟩) (Ty.refsBy_inherited gen) hI e ha).1

theorem spec_accepts_refs (i : Nat) (e : Ty) {a : Ty} (ha : a.RefsBy gen) (pos : Nat) :
    Spec (BindsRefs gen) (accepts i e a pos) (fun _ => True) := by
  intro σ st hI
  refine ⟨?_, fun _ _ => trivial⟩
  rw [accepts, exec_binding, exec_answer_store]
  exact View.accepts_all (v := ⟨st.scopes, i, σ.decls⟩) (Ty.refsBy_inherited gen) hI e ha

/-- A setting whose built-in types name their interfaces by `gen`. -/
def RefsFit (σ : Setting) : Prop :=
  ∀ t ∈ [σ.builtins.int, σ.builtins.float, σ.builtins.string, σ.builtins.void, σ.builtins.list],
    t.RefsBy gen

/-- The translation that changes nothing, over stores whose bound types name every interface
by `gen`. -/
def Translation.params : Translation := Translation.keeping (RefsFit gen) (BindsRefs gen) (Ty.RefsBy gen)

theorem Translation.params_ty (t : Ty) : (Translation.params gen).ty t = t := Ty.rename_id t

open Translation in
/-- **Every step keeps interfaces' parameters**: what it binds and what it returns is a type
it was given, a bound type, a fresh generic or parts of these, and the interface a call's
callee belongs to is named in the callee's type. -/
theorem Translation.params_steps : (Translation.params gen).Steps where
  injective := Function.injective_id
  lookupName i x := keeping_sim (fun o => by cases o <;> simp [params_ty])
    (spec_lookupName_refs gen i x)
  simp i _ ht := by
    rw [params_ty]
    exact keeping_sim (params_ty gen) (spec_simp_refs gen i ht)
  bindName i x _ ht := by
    rw [params_ty]
    exact keeping_sim (fun _ => rfl) (spec_bindName_refs gen i x ht)
  openFrame i := keeping_sim (fun _ => rfl) (spec_openFrame_refs gen i)
  freshGeneric g := keeping_sim (params_ty gen) (spec_freshGeneric_refs gen g)
  assignable i e a pos := by
    rw [params_ty, params_ty]
    exact keeping_sim (fun _ => rfl) (Spec.of_store fun σ st => exec_assignable_store σ st i e a pos)
  unify i e _ ha pos := by
    rw [params_ty, params_ty]
    exact keeping_sim (fun _ => rfl) (spec_unify_refs gen i e ha pos)
  accepts i e _ ha pos := by
    rw [params_ty, params_ty]
    exact keeping_sim (fun _ => rfl) (spec_accepts_refs gen i e ha pos)
  inherited := Ty.refsBy_inherited gen
  generic _ := Ty.refsBy_generic
  owner h := Ty.refsBy_iface.2 ((Ty.refsBy_fn.1 h).2.2 _ rfl)
  fn_ret _ h hr := Ty.refsBy_fn.2 ⟨(Ty.refsBy_fn.1 h).1, hr, (Ty.refsBy_fn.1 h).2.2⟩
  ctor h := Ty.refsBy_ctor.1 h
  dispatch _ _ _ := rfl
  list := rfl
  builtins σ _ := (Builtins.rename_eq_self fun t _ => Ty.rename_id t).symm
  builtins_good _ hσ := hσ
  maxDepth _ := rfl
  live _ := rfl

end Steps

/-! ### Whole checks -/

section Runs

variable {gen : Nat → String} {σ : Setting} {st : Store}

/-- **A check keeps every interface's declared parameter.** Check any node from a store whose
bound types name each interface with the parameter `gen` gives it, in a setting whose built-in
types do too: the store it leaves, whether it returns or stops at a fault, still binds only
such types, and the type it gives is one. -/
theorem typeOf_keeps_refs (hσ : RefsFit gen σ) (hst : BindsRefs gen st) (d env : Nat) (ctx : Ctx)
    (hctx : ∀ t, ctx = .subject t → t.RefsBy gen) (n : Node) :
    BindsRefs gen ((typeOf d env ctx n).exec σ st).2 ∧
      ∀ r, ((typeOf d env ctx n).exec σ st).1 = .ok r → r.1.RefsBy gen :=
  ((Translation.params_steps gen).typeOf d env ctx hctx n
    ((Node.everyName_iff n).2 fun _ _ => rfl)).keeps hσ hst

/-- The items of a block keep every interface's declared parameter, and so does the type of the
last. -/
theorem typeBlock_keeps_refs (hσ : RefsFit gen σ) (hst : BindsRefs gen st) (d scope : Nat)
    {last : Ty} (hlast : last.RefsBy gen) (items : List Node) :
    BindsRefs gen ((typeBlock d scope last items).exec σ st).2 ∧
      ∀ r, ((typeBlock d scope last items).exec σ st).1 = .ok r → r.1.RefsBy gen :=
  ((Translation.params_steps gen).typeBlock d scope hlast items
    ((Node.listEveryName_iff items).2 fun _ _ => rfl)).keeps hσ hst

end Runs

end Check

/-- The setting a read program is checked in has built-in types that name their interfaces by
the table's parameters. -/
theorem Decls.Written.refsFit {d : Decls} (h : d.Written) (maxDepth : Nat) :
    Check.RefsFit d.paramOf ⟨d, Builtins.ofDecls d, maxDepth, d.liveIfaces⟩ :=
  fun t ht => h.refsBy (h.builtins t ht)

/-- **Checking a program read from its source keeps every interface's declared parameter.**
The store the check ends in, returned or stopped at a fault, binds only types whose interfaces
carry the parameters the program's table declares for them, so it meets the assumption of
`View.queries_keep_settled` with `gen := Decls.paramOf`; and so does the type the check
gives. -/
theorem Program.check_keeps_params {src : String} {toks : Array Token} {prog : Program}
    (hscan : Token.scan src = .ok toks) (hread : Parse.program toks = .ok prog) (maxDepth : Nat) :
    let σ : Setting := ⟨prog.decls, Builtins.ofDecls prog.decls, maxDepth, prog.decls.liveIfaces⟩
    let m := Check.typeOf 0 0 .plain prog.body
    (m.exec σ ⟨Scopes.ofRoot prog.decls.env, 0⟩).2.scopes.BindsAll
        (Ty.ParamsBy prog.decls.paramOf) ∧
      ∀ r, (m.exec σ ⟨Scopes.ofRoot prog.decls.env, 0⟩).1 = .ok r →
        r.1.ParamsBy prog.decls.paramOf := by
  intro σ m
  have hd := (Program.written_of_source hscan hread).2
  have hroot : Check.BindsRefs prog.decls.paramOf ⟨Scopes.ofRoot prog.decls.env, 0⟩ :=
    hd.root_refsBy
  obtain ⟨hst, hty⟩ := Check.typeOf_keeps_refs (hd.refsFit maxDepth) hroot 0 0 .plain
    (fun _ h => by cases h) prog.body
  exact ⟨Scopes.BindsAll.paramsBy hst, fun r hr => Ty.paramsBy_of_refsBy _ (hty r hr)⟩

end Verve
