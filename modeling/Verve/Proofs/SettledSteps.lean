import Verve.Proofs.ReadProgram
import Verve.Proofs.Chains

/-!
# Each step of a check keeps its store settled

`Store.Settled` asks of a store that each frame's parent be among the frames, and that no bound
name, nor any generic of a bound type, be a copy numbered after the store's counter. A check
makes copies only by counting up (`Check.freshGeneric`), so a store stays settled as long as
every name it binds and every type it binds was made before the counter (`Ty.Before`).

This module shows that every step of a check keeps this:

* looking a name up and simplifying give types made before the counter, since they are parts
  of the types given or of bound types (`Store.Settled.get`, `Store.Settled.simplify`);
* binding such a name to such a type, opening a frame inside one of the frames and counting up
  keep the store settled (`Store.Settled.set`, `Store.Settled.child`, `Store.Settled.raise`);
* the searches behind `unify` and `accepts` bind only names and types that were there before
  them (`View.solve_before`), so they keep the store settled too (`Store.Settled.unify`).

`Check.Keeps c k m Q` packs what a step does into a form that composes: run from a settled store
whose counter is at least `c` and which has at least `k` frames, `m` leaves a settled store no
earlier, and its values satisfy `Q` there. Facts about earlier values carry over to the later
store because they only get weaker as the counter and the frames grow (`Ty.Before.mono`).
-/

namespace Verve

namespace Placeholder

theorem Below.mono {c c' : Nat} {x : String} (h : Below c x) (hc : c ≤ c') : Below c' x :=
  fun s hs hd => (h s hs hd).trans hc

/-- The copy a check makes when its counter moves to `c + 1`, of a name below `c`, is below
`c + 1`: its parts are those of the name and the new numeral. -/
theorem below_fresh {c : Nat} {g : String} (hg : Below c g) :
    Below (c + 1) (g ++ "#" ++ Nat.repr (c + 1)) := by
  intro s hs hd
  obtain ⟨first, rest, hp⟩ := List.exists_cons_of_ne_nil (parts_ne_nil g)
  rw [parts_fresh, hp, List.cons_append, List.tail_cons] at hs
  rcases List.mem_append.1 hs with hs | hs
  · exact (hg s (by rw [hp]; exact hs) hd).trans (Nat.le_succ c)
  · rw [List.mem_singleton.1 hs, Nat.ofDigitChars_ten_toDigits]

end Placeholder

open Placeholder

namespace Ty

/-- **A type made before counter `c`**: its named parts are plain, and no generic in it is a
copy numbered after `c`. -/
def Before (c : Nat) (t : Ty) : Prop := t.Plain ∧ ∀ x ∈ t.genericNames, Below c x

variable {c c' : Nat}

theorem Before.mono {t : Ty} (h : t.Before c) (hc : c ≤ c') : t.Before c' :=
  ⟨h.1, fun x hx => (h.2 x hx).mono hc⟩

@[simp] theorem before_generic {x : String} : (Ty.generic x).Before c ↔ Below c x := by
  simp [Before, Plain, genericNames]

@[simp] theorem before_iface {r : IfaceRef} : (Ty.iface r).Before c ↔ Below c r.generic := by
  simp [Before, Plain, genericNames]

theorem before_app {h : Ty} {as : List Ty} :
    (Ty.app h as).Before c ↔ h.Before c ∧ ∀ t ∈ as, t.Before c := by
  simp only [Before, Plain, plainList_iff, genericNames, List.mem_append]
  constructor
  · rintro ⟨⟨hh, has⟩, hg⟩
    refine ⟨⟨hh, fun x hx => hg x (.inl hx)⟩, fun t ht => ⟨has t ht, fun x hx => ?_⟩⟩
    exact hg x (.inr (mem_genericNamesList.2 ⟨t, ht, hx⟩))
  · rintro ⟨⟨hh, hgh⟩, has⟩
    refine ⟨⟨hh, fun t ht => (has t ht).1⟩, fun x hx => ?_⟩
    rcases hx with hx | hx
    · exact hgh x hx
    · obtain ⟨t, ht, hx⟩ := mem_genericNamesList.1 hx
      exact (has t ht).2 x hx

theorem Before.fn {n : String} {ps : List Ty} {r : Ty} {gs : List String} {o : Option IfaceRef}
    (h : (Ty.fn n ps r gs o).Before c) :
    (∀ t ∈ ps, t.Before c) ∧ r.Before c ∧ (∀ g ∈ gs, Below c g) ∧ ∀ x ∈ o, Below c x.generic := by
  obtain ⟨⟨-, hps, hr⟩, hg⟩ := h
  simp only [genericNames, List.mem_append, mem_genericNamesList, List.mem_map,
    Option.mem_toList] at hg
  refine ⟨fun t ht => ⟨(plainList_iff ps).1 hps t ht, fun x hx => hg x (.inl (.inl (.inl ⟨t, ht, hx⟩)))⟩,
    ⟨hr, fun x hx => hg x (.inl (.inl (.inr hx)))⟩, fun g hg' => hg g (.inl (.inr hg')),
    fun x hx => hg _ (.inr ⟨x, hx, rfl⟩)⟩

theorem before_fn_ret {n : String} {ps : List Ty} {r r' : Ty} {gs : List String}
    {o : Option IfaceRef} (h : (Ty.fn n ps r gs o).Before c) (hr : r'.Before c) :
    (Ty.fn n ps r' gs o).Before c := by
  obtain ⟨⟨hn, hps, -⟩, hg⟩ := h
  refine ⟨⟨hn, hps, hr.1⟩, fun x hx => ?_⟩
  simp only [genericNames, List.mem_append] at hx hg
  rcases hx with ((hx | hx) | hx) | hx
  · exact hg x (.inl (.inl (.inl hx)))
  · exact hr.2 x hx
  · exact hg x (.inl (.inr hx))
  · exact hg x (.inr hx)

theorem Before.ctor {i : Nat} {n : String} {ps : List Ty} {r : Ty} {gs : List String}
    (h : (Ty.ctor i n ps r gs).Before c) :
    (∀ t ∈ ps, t.Before c) ∧ r.Before c ∧ ∀ g ∈ gs, Below c g := by
  obtain ⟨⟨hps, hr⟩, hg⟩ := h
  simp only [genericNames, List.mem_append, mem_genericNamesList] at hg
  exact ⟨fun t ht => ⟨(plainList_iff ps).1 hps t ht, fun x hx => hg x (.inl (.inl ⟨t, ht, hx⟩))⟩,
    ⟨hr, fun x hx => hg x (.inl (.inr hx))⟩, fun g hg' => hg g (.inr hg')⟩

/-- Being made before a counter is inherited by the parts of a type. -/
theorem before_inherited (c : Nat) : Inherited (Before c) where
  app _ _ := before_app
  fn _ _ _ _ _ h := ⟨h.fn.1, h.fn.2.1⟩

end Ty

/-- A signature made before counter `c`: its parameters and result, its generics and the
parameter of the interface it belongs to. -/
structure Sig.Before (c : Nat) (f : Sig) : Prop where
  params : ∀ t ∈ f.params, t.Before c
  ret : f.ret.Before c
  generics : ∀ g ∈ f.generics, Below c g
  owner : ∀ o ∈ f.owner, Below c o.generic

namespace Sig

variable {c c' : Nat} {f : Sig}

theorem Before.mono (h : f.Before c) (hc : c ≤ c') : f.Before c' where
  params t ht := (h.params t ht).mono hc
  ret := h.ret.mono hc
  generics g hg := (h.generics g hg).mono hc
  owner o ho := (h.owner o ho).mono hc

theorem before_of_toTy (h : f.toTy.Before c) : f.Before c :=
  ⟨h.fn.1, h.fn.2.1, h.fn.2.2.1, h.fn.2.2.2⟩

theorem before_of_ctorSig? {t : Ty} (ht : t.Before c) (h : t.ctorSig? = some f) : f.Before c := by
  cases t with
  | ctor i n ps r gs =>
    simp only [Ty.ctorSig?, Option.some.injEq] at h
    subst h
    exact ⟨ht.ctor.1, ht.ctor.2.1, ht.ctor.2.2, fun _ h => by cases h⟩
  | _ => simp [Ty.ctorSig?] at h

end Sig

/-- Fixed built-in types are made before any counter. -/
theorem Builtins.Fixed.before {b : Builtins} (h : b.Fixed) (c : Nat) :
    ∀ t ∈ [b.int, b.float, b.string, b.void, b.list], t.Before c :=
  fun t ht => ⟨(h t ht).1, fun x hx => below_of_not_mem ((h t ht).2 x hx)⟩

/-- The parameter of the built-in list type of fixed built-in types is a plain name. -/
theorem Builtins.Fixed.listGeneric {b : Builtins} (h : b.Fixed) (c : Nat) :
    Below c b.listGeneric := by
  unfold Builtins.listGeneric
  split
  · rename_i r hl
    cases hg : r.generics with
    | nil => exact below_of_not_mem (by decide)
    | cons g gs =>
      have hlist := h b.list (by simp)
      rw [hl] at hlist
      exact below_of_not_mem (hlist.2 g (by simp [Ty.genericNames, hg]))
  · exact below_of_not_mem (by decide)

/-! ### Stores -/

/-- A member of a list with one entry changed is a member of the list, or the change of one. -/
theorem mem_modify_imp {α : Type} {g : α → α} {f : α} {l : List α} {i : Nat}
    (h : f ∈ l.modify i g) : f ∈ l ∨ ∃ f0 ∈ l, f = g f0 := by
  induction l generalizing i with
  | nil => simp at h
  | cons a l ih =>
    cases i with
    | zero =>
      rw [List.modify_zero_cons, List.mem_cons] at h
      rcases h with rfl | h
      · exact .inr ⟨a, List.mem_cons_self, rfl⟩
      · exact .inl (List.mem_cons_of_mem _ h)
    | succ i =>
      rw [List.modify_succ_cons, List.mem_cons] at h
      rcases h with rfl | h
      · exact .inl List.mem_cons_self
      · rcases ih h with h | ⟨f0, hf0, rfl⟩
        · exact .inl (List.mem_cons_of_mem _ h)
        · exact .inr ⟨f0, List.mem_cons_of_mem _ hf0, rfl⟩

/-- A frame of the scopes after a binding is an old frame, or an old frame with the binding
in front. -/
theorem Scopes.mem_frames_set {s : Scopes} {i : Nat} {x : String} {t : Ty} {f : Frame}
    (hf : f ∈ (s.set i x t).frames) :
    f ∈ s.frames ∨ ∃ f0 ∈ s.frames, f = { f0 with binds := (x, t) :: f0.binds } := by
  obtain ⟨frames, bound⟩ := s
  simp only [Scopes.set] at hf
  have hl : f ∈ frames.toList.modify i (fun f => { f with binds := (x, t) :: f.binds }) := by
    rw [← Array.toList_modify]
    exact Array.mem_toList_iff.2 hf
  rcases mem_modify_imp hl with hl | ⟨f0, hf0, rfl⟩
  · exact .inl (Array.mem_toList_iff.1 hl)
  · exact .inr ⟨f0, Array.mem_toList_iff.1 hf0, rfl⟩

namespace Store.Settled

variable {st : Store} (h : st.Settled)
include h

/-- Every type a settled store binds was made before its counter. -/
theorem bindsBefore : st.scopes.BindsAll (Ty.Before st.fresh) := by
  intro t ht
  obtain ⟨f, hf, hb⟩ := List.mem_flatMap.1 ht
  obtain ⟨b, hbf, rfl⟩ := List.mem_map.1 hb
  exact ⟨h.plain _ ht, (h.below f (Array.mem_toList_iff.1 hf) b hbf).2⟩

theorem get {i : Nat} {x : String} {t : Ty} (hg : st.scopes.get i x = some t) :
    t.Before st.fresh :=
  h.bindsBefore.get hg

/-- Simplifying a type made before the counter gives one. -/
theorem simplify (i : Nat) {t : Ty} (ht : t.Before st.fresh) :
    (st.scopes.simplify i t).Before st.fresh :=
  h.bindsBefore.simplify (Ty.before_inherited st.fresh) i ht

/-- **Binding a name made before the counter to a type made before it keeps a store
settled.** The frame gains the binding in front and keeps its parent; no frame is added. -/
theorem set (i : Nat) {x : String} {t : Ty} (hx : Below st.fresh x) (ht : t.Before st.fresh) :
    Store.Settled ⟨st.scopes.set i x t, st.fresh⟩ where
  sound := h.sound.set i x t
  plain := h.plain.set i x ht.1
  parent_lt f hf p hp := by
    rw [Scopes.size_set]
    rcases Scopes.mem_frames_set hf with hf | ⟨f0, hf0, rfl⟩
    · exact h.parent_lt f hf p hp
    · exact h.parent_lt f0 hf0 p hp
  below f hf b hb := by
    rcases Scopes.mem_frames_set hf with hf | ⟨f0, hf0, rfl⟩
    · exact h.below f hf b hb
    · rcases List.mem_cons.1 hb with rfl | hb
      · exact ⟨hx, ht.2⟩
      · exact h.below f0 hf0 b hb

/-- A settled store stays settled when its counter moves up. -/
theorem raise {c : Nat} (hc : st.fresh ≤ c) : Store.Settled ⟨st.scopes, c⟩ where
  sound := h.sound
  plain := h.plain
  parent_lt := h.parent_lt
  below f hf b hb := ⟨(h.below f hf b hb).1.mono hc, fun x hx => ((h.below f hf b hb).2 x hx).mono hc⟩

/-- Writing a list of bindings made before the counter, the newest of each name, keeps a store
settled. -/
theorem commit (i : Nat) {p : Found} (hp : ∀ b ∈ p, Below st.fresh b.1 ∧ b.2.Before st.fresh) :
    Store.Settled ⟨st.scopes.commit i p, st.fresh⟩ := by
  have key : ∀ (bs : Found) (s : Scopes), Store.Settled ⟨s, st.fresh⟩ →
      (∀ b ∈ bs, Below st.fresh b.1 ∧ b.2.Before st.fresh) →
      Store.Settled ⟨bs.foldl (fun s b => s.set i b.1 b.2) s, st.fresh⟩ := by
    intro bs
    induction bs with
    | nil => exact fun _ hs _ => hs
    | cons b bs ih =>
      intro s hs hbs
      obtain ⟨hb, ht⟩ := hbs b List.mem_cons_self
      exact ih _ (hs.set i hb ht) fun b' hb' => hbs b' (List.mem_cons_of_mem _ hb')
  exact key _ st.scopes h fun b hb => hp b (mem_of_mem_latestBindings hb)

end Store.Settled

/-! ### Searches bind what was there before them -/

/-- The bindings an outcome holds with are of names and types made before counter `c`. -/
def Outcome.Before (c : Nat) : Outcome → Prop
  | .holds p => ∀ b ∈ p, Below c b.1 ∧ b.2.Before c
  | _ => True

/-- Where a chase leads, when it leads to a binding or a type, was made before counter `c`. -/
def Lead.Before (c : Nat) : Lead → Prop
  | .bind r => Below c r.generic
  | .solve b => b.Before c
  | _ => True

namespace View

variable (v : View) {c : Nat} {p : Found}

section Walks

variable {v} (hv : v.scopes.BindsAll (Ty.Before c)) (hp : ∀ b ∈ p, Below c b.1 ∧ b.2.Before c)
include hv hp

theorem look_before {x : String} {t : Ty} (h : v.look p x = some t) : t.Before c := by
  rcases List.mem_append.1 (look_mem_boundTypes h) with ht | ht
  · obtain ⟨b, hb, rfl⟩ := List.mem_map.1 ht
    exact (hp b hb).2
  · exact hv t ht

/-- A walk from a name made before the counter reaches only such names: each link is a bound
generic. -/
theorem reaches_below {x u : String} (h : Chain.Reaches (v.look p) x u) (hx : Below c x) :
    Below c u := by
  induction h with
  | refl => exact hx
  | tail _ hl ih => exact Ty.before_generic.1 (look_before hv hp hl)

theorem resolve_ok_before {n : String} {b : Ty} (h : v.resolve p n [] rfl = .ok b) :
    b.Before c := by
  obtain ⟨z, -, hz, -⟩ := v.resolve_ok p h
  exact look_before hv hp hz

theorem resolve_error_below {n u : String} (h : v.resolve p n [] rfl = .error u)
    (hn : Below c n) : Below c u :=
  reaches_below hv hp (v.resolve_error p (fun _ h => absurd h List.not_mem_nil) h).1 hn

/-- A chase from an interface whose parameter was made before the counter leads to a binding
of such a parameter, or to a bound type. -/
theorem chase_before {a : Ty} :
    ∀ (fuel : Nat) (seen : List Nat) (r : IfaceRef), Below c r.generic →
      (v.chase p a fuel seen r).Before c
  | 0, _, _, _ => trivial
  | fuel + 1, seen, r, hr => by
    rw [chase]
    split_ifs
    · trivial
    · trivial
    · split
      · rename_i r' hres
        split_ifs
        · exact hr
        · exact chase_before fuel _ r' (Ty.before_iface.1 (resolve_ok_before hv hp hres))
      · rename_i b _ hres
        exact resolve_ok_before hv hp hres
      · exact hr

end Walks

variable {v}

mutual

/-- **A search binds only what was there before it**: every name it binds is a generic of the
types it was given or of a bound type, and every type it binds a part of the actual type. -/
theorem solve_before (hv : v.scopes.BindsAll (Ty.Before c)) (p : Found)
    (hp : ∀ b ∈ p, Below c b.1 ∧ b.2.Before c) (e a : Ty) (he : e.Before c) (ha : a.Before c) :
    (v.solve p e a).Before c := by
  fun_cases v.solve p e a
  case case1 n b hb => exact solveBound_before hv p hp b a (resolve_ok_before hv hp hb) ha
  case case2 n u hu hn => exact hp
  case case3 n u hu hn =>
    exact List.forall_mem_cons.2 ⟨⟨resolve_error_below hv hp hu (Ty.before_generic.1 he), ha⟩, hp⟩
  case case4 r => exact solveIface_before hv p hp r a (Ty.before_iface.1 he) ha
  case case5 hg hi => exact solveShape_before hv p hp e a he ha
termination_by (sizeOf a, 3)
decreasing_by all_goals exact Prod.Lex.right _ (by decide)

theorem solveBound_before (hv : v.scopes.BindsAll (Ty.Before c)) (p : Found)
    (hp : ∀ b ∈ p, Below c b.1 ∧ b.2.Before c) (b a : Ty) (hb : b.Before c) (ha : a.Before c) :
    (v.solveBound p b a).Before c := by
  fun_cases v.solveBound p b a
  case case1 r => exact solveIface_before hv p hp r a (Ty.before_iface.1 hb) ha
  case case2 hi => exact solveShape_before hv p hp b a hb ha
termination_by (sizeOf a, 2)
decreasing_by all_goals exact Prod.Lex.right _ (by decide)

theorem solveIface_before (hv : v.scopes.BindsAll (Ty.Before c)) (p : Found)
    (hp : ∀ b ∈ p, Below c b.1 ∧ b.2.Before c) (r : IfaceRef) (a : Ty) (hr : Below c r.generic)
    (ha : a.Before c) : (v.solveIface p r a).Before c := by
  have hchase := chase_before hv hp (a := a) (p.length + v.scopes.bound + 2) [] r hr
  rw [solveIface.eq_1]
  split
  · exact hp
  · rename_i r' hl
    rw [hl] at hchase
    split
    · exact List.forall_mem_cons.2 ⟨⟨hchase, ha⟩, hp⟩
    · trivial
  · rename_i b hl
    rw [hl] at hchase
    exact solveShape_before hv p hp _ a hchase ha
  · trivial
termination_by (sizeOf a, 1)
decreasing_by all_goals exact Prod.Lex.right _ (by decide)

theorem solveShape_before (hv : v.scopes.BindsAll (Ty.Before c)) (p : Found)
    (hp : ∀ b ∈ p, Below c b.1 ∧ b.2.Before c) (e a : Ty) (he : e.Before c) (ha : a.Before c) :
    (v.solveShape p e a).Before c := by
  fun_cases v.solveShape p e a
  case case4 he' es ha' as hc =>
    exact solveArgs_before hv p hp true es as (Ty.before_app.1 he).2 (Ty.before_app.1 ha).2
  case case14 n ps r gs o n' ps' r' gs' o' hlen p' hargs =>
    have h := solveArgs_before hv p hp false ps ps' he.fn.1 ha.fn.1
    rw [hargs] at h
    exact solve_before hv p' h r r' he.fn.2.1 ha.fn.2.1
  case case15 n ps r gs o n' ps' r' gs' o' hlen hargs =>
    exact solveArgs_before hv p hp false ps ps' he.fn.1 ha.fn.1
  case case2 | case6 | case8 | case10 | case12 => exact hp
  case case1 | case3 | case5 | case7 | case9 | case11 | case13 | case16 | case17 => trivial
termination_by (sizeOf a, 0)
decreasing_by
  all_goals
    apply Prod.Lex.left
    subst_vars
    simp only [Ty.app.sizeOf_spec, Ty.fn.sizeOf_spec]
    omega

theorem solveArgs_before (hv : v.scopes.BindsAll (Ty.Before c)) (p : Found)
    (hp : ∀ b ∈ p, Below c b.1 ∧ b.2.Before c) (sg : Bool) (es as : List Ty)
    (hes : ∀ t ∈ es, t.Before c) (has : ∀ t ∈ as, t.Before c) :
    (v.solveArgs p sg es as).Before c := by
  fun_cases v.solveArgs p sg es as
  case case1 e es a as hg =>
    exact solveArgs_before hv p hp sg es as (List.forall_mem_cons.1 hes).2
      (List.forall_mem_cons.1 has).2
  case case2 e es a as hg p' hs =>
    have h := solve_before hv p hp e a (List.forall_mem_cons.1 hes).1 (List.forall_mem_cons.1 has).1
    rw [hs] at h
    exact solveArgs_before hv p' h sg es as (List.forall_mem_cons.1 hes).2
      (List.forall_mem_cons.1 has).2
  case case3 e es a as hg hs =>
    exact solve_before hv p hp e a (List.forall_mem_cons.1 hes).1 (List.forall_mem_cons.1 has).1
  case case4 => exact hp
termination_by (sizeOf as, 0)
decreasing_by
  all_goals
    apply Prod.Lex.left
    subst_vars
    simp only [List.cons.sizeOf_spec]
    omega

end

end View

namespace Store.Settled

variable {st : Store} (h : st.Settled)
include h

/-- **Unifying two types made before the counter keeps a store settled.** -/
theorem unify (i : Nat) (d : Decls) {e a : Ty} (he : e.Before st.fresh) (ha : a.Before st.fresh) :
    Store.Settled ⟨(View.unify ⟨st.scopes, i, d⟩ e a).2, st.fresh⟩ := by
  have hs := View.solve_before (v := ⟨st.scopes, i, d⟩) h.bindsBefore [] (fun _ h => by cases h)
    e a he ha
  unfold View.unify
  split
  · rename_i p hp
    rw [hp] at hs
    exact h.commit i hs
  · exact h

theorem accepts (i : Nat) (d : Decls) {e a : Ty} (he : e.Before st.fresh) (ha : a.Before st.fresh) :
    Store.Settled ⟨(View.accepts ⟨st.scopes, i, d⟩ e a).2, st.fresh⟩ := by
  unfold View.accepts
  split
  · exact h.unify i d he ha
  · exact h

end Store.Settled

theorem Scopes.size_child (s : Scopes) (i : Nat) :
    (s.child i).1.frames.size = s.frames.size + 1 := by
  obtain ⟨frames, bound⟩ := s
  simp [Scopes.child]

theorem View.size_unify (v : View) (e a : Ty) :
    (v.unify e a).2.frames.size = v.scopes.frames.size := by
  unfold View.unify
  split
  · exact Scopes.size_commit _ _ _
  · rfl

theorem View.size_accepts (v : View) (e a : Ty) :
    (v.accepts e a).2.frames.size = v.scopes.frames.size := by
  unfold View.accepts
  split
  · exact v.size_unify e a
  · rfl

/-! ### Steps from a mark on -/

namespace Check

/-- **`m` keeps stores settled from a mark on.** Run in a setting with fixed built-in types, from
a settled store whose counter is at least `c` and which has at least `k` frames, `m` leaves a
settled store whose counter and number of frames are no smaller, whether it returns or stops at
a fault; a value it returns satisfies `Q` at the counter and the number of frames it leaves. -/
def Keeps {α : Type} (c k : Nat) (m : Check α) (Q : α → Nat → Nat → Prop) : Prop :=
  ∀ σ st, σ.builtins.Fixed → st.Settled → c ≤ st.fresh → k ≤ st.scopes.frames.size →
    st.fresh ≤ (m.exec σ st).2.fresh ∧
      st.scopes.frames.size ≤ (m.exec σ st).2.scopes.frames.size ∧ (m.exec σ st).2.Settled ∧
      ∀ a, (m.exec σ st).1 = .ok a → Q a (m.exec σ st).2.fresh (m.exec σ st).2.scopes.frames.size

namespace Keeps

variable {α β : Type} {c k : Nat}

/-- The second step starts from the mark the first left, with what the first returned. -/
theorem bind {m : Check α} {f : α → Check β} {Q : α → Nat → Nat → Prop}
    {R : β → Nat → Nat → Prop} (hm : Keeps c k m Q)
    (hf : ∀ a c' k', c ≤ c' → k ≤ k' → Q a c' k' → Keeps c' k' (f a) R) :
    Keeps c k (m >>= f) R := by
  intro σ st hσ hst hc hk
  obtain ⟨hc1, hk1, hst1, hQ⟩ := hm σ st hσ hst hc hk
  rw [exec_bind]
  rcases h : m.exec σ st with ⟨r, st1⟩
  rw [h] at hc1 hk1 hst1 hQ
  cases r with
  | error e => exact ⟨hc1, hk1, hst1, fun _ h => by cases h⟩
  | ok a =>
    obtain ⟨hc2, hk2, hst2, hR⟩ := hf a _ _ (hc.trans hc1) (hk.trans hk1) (hQ a rfl) σ st1 hσ hst1
      le_rfl le_rfl
    exact ⟨hc1.trans hc2, hk1.trans hk2, hst2, hR⟩

/-- A value returned where it is, by a fact that holds from the mark on. -/
theorem pure {a : α} {Q : α → Nat → Nat → Prop} (h : ∀ c' k', c ≤ c' → k ≤ k' → Q a c' k') :
    Keeps c k (Pure.pure a) Q :=
  fun _ _ _ hst hc hk => ⟨le_rfl, le_rfl, hst, fun _ he => by cases he; exact h _ _ hc hk⟩

theorem throw {e : Located} {Q : α → Nat → Nat → Prop} : Keeps c k (MonadExcept.throw e) Q :=
  fun _ _ _ hst _ _ => ⟨le_rfl, le_rfl, hst, fun _ he => by cases he⟩

/-- Nothing after a fault runs. -/
theorem throw_bind {e : Located} {f : α → Check β} {R : β → Nat → Nat → Prop} :
    Keeps c k (MonadExcept.throw e >>= f) R :=
  bind (Q := fun _ _ _ => False) throw fun _ _ _ _ _ h => h.elim

/-- The setting's built-in types are fixed. -/
theorem read : Keeps c k (MonadReader.read : Check Setting) (fun σ _ _ => σ.builtins.Fixed) :=
  fun σ _ hσ hst _ _ => ⟨le_rfl, le_rfl, hst, fun _ he => by cases he; exact hσ⟩

theorem imp {m : Check α} {Q Q' : α → Nat → Nat → Prop} (h : Keeps c k m Q)
    (hq : ∀ a c' k', Q a c' k' → Q' a c' k') : Keeps c k m Q' := fun σ st hσ hst hc hk =>
  let ⟨h1, h2, h3, h4⟩ := h σ st hσ hst hc hk
  ⟨h1, h2, h3, fun a ha => hq _ _ _ (h4 a ha)⟩

/-- A `for` loop whose every round keeps stores settled from any later mark does so too. -/
theorem forIn {γ δ : Type} {l : List γ} {b : δ} {f : γ → δ → Check (ForInStep δ)}
    (hf : ∀ x ∈ l, ∀ b c' k', c ≤ c' → k ≤ k' → Keeps c' k' (f x b) (fun _ _ _ => True)) :
    Keeps c k (ForIn.forIn l b f) (fun _ _ _ => True) := by
  induction l generalizing b c k with
  | nil => exact pure fun _ _ _ _ => trivial
  | cons x l ih =>
    rw [List.forIn_cons]
    refine bind (hf x List.mem_cons_self b c k le_rfl le_rfl) fun r c1 k1 hc1 hk1 _ => ?_
    cases r with
    | done b' => exact pure fun _ _ _ _ => trivial
    | yield b' =>
      exact ih (fun y hy b c' k' hc hk =>
        hf y (List.mem_cons_of_mem _ hy) b c' k' (hc1.trans hc) (hk1.trans hk))

/-- Mapping a step over a list, each step giving a value with a fact that holds from its mark
on, gives a list of such values. -/
theorem mapM {γ : Type} {l : List γ} {f : γ → Check α} {Q : α → Nat → Prop}
    (hQ : ∀ a c' c'', c' ≤ c'' → Q a c' → Q a c'')
    (hf : ∀ x ∈ l, ∀ c' k', c ≤ c' → k ≤ k' → Keeps c' k' (f x) (fun a c'' _ => Q a c'')) :
    Keeps c k (l.mapM f) (fun as c' _ => ∀ a ∈ as, Q a c') := by
  induction l generalizing c k with
  | nil => exact pure fun _ _ _ _ _ h => absurd h List.not_mem_nil
  | cons x l ih =>
    rw [List.mapM_cons]
    refine bind (hf x List.mem_cons_self c k le_rfl le_rfl) fun a c1 k1 hc1 hk1 ha => ?_
    refine bind (ih fun y hy c' k' hc hk =>
      hf y (List.mem_cons_of_mem _ hy) c' k' (hc1.trans hc) (hk1.trans hk))
      fun as c2 k2 hc2 hk2 has => ?_
    refine pure fun c3 k3 hc3 _ b hb => ?_
    rcases List.mem_cons.1 hb with rfl | hb
    · exact hQ b _ _ (hc2.trans hc3) ha
    · exact hQ b _ _ hc3 (has b hb)

end Keeps

/-! #### The steps that read and write the store -/

section Primitives

variable {c k : Nat}

theorem keeps_lookupName (i : Nat) (x : String) :
    Keeps c k (lookupName i x) (fun o c' _ => ∀ t ∈ o, t.Before c') := by
  intro σ st _ hst _ _
  rw [exec_lookupName]
  exact ⟨le_rfl, le_rfl, hst, fun o ho t ht => by cases ho; exact hst.get ht⟩

theorem keeps_simp (i : Nat) {t : Ty} (ht : t.Before c) :
    Keeps c k (simp i t) (fun u c' _ => u.Before c') := by
  intro σ st _ hst hc _
  rw [exec_simp]
  exact ⟨le_rfl, le_rfl, hst, fun u hu => by cases hu; exact hst.simplify i (ht.mono hc)⟩

theorem keeps_bindName (i : Nat) {x : String} {t : Ty} (hx : Below c x) (ht : t.Before c) :
    Keeps c k (bindName i x t) (fun _ _ _ => True) := by
  intro σ st _ hst hc _
  rw [exec_bindName]
  exact ⟨le_rfl, (Scopes.size_set _ _ _ _).ge, hst.set i (hx.mono hc) (ht.mono hc),
    fun _ _ => trivial⟩

/-- A frame opened inside one of the frames is a new one. -/
theorem keeps_openFrame {i : Nat} (hi : i < k) :
    Keeps c k (openFrame i) (fun j _ k' => j < k') := by
  intro σ st _ hst _ hk
  rw [exec_openFrame]
  refine ⟨le_rfl, by rw [Scopes.size_child]; omega, hst.child (by omega), fun j hj => ?_⟩
  cases hj
  rw [Scopes.size_child]
  omega

/-- A fresh copy of a name made before the counter is made before the counter it moves to. -/
theorem keeps_freshGeneric {g : String} (hg : Below c g) :
    Keeps c k (freshGeneric g) (fun u c' _ => u.Before c') := by
  intro σ st _ hst hc _
  rw [exec_freshGeneric]
  exact ⟨Nat.le_succ _, le_rfl, hst.raise (Nat.le_succ _), fun u hu => by
    cases hu
    exact Ty.before_generic.2 (below_fresh (hg.mono hc))⟩

theorem keeps_assignable (i : Nat) (e a : Ty) (pos : Nat) :
    Keeps c k (assignable i e a pos) (fun _ _ _ => True) := by
  intro σ st _ hst _ _
  rw [exec_assignable_store]
  exact ⟨le_rfl, le_rfl, hst, fun _ _ => trivial⟩

theorem keeps_unify (i : Nat) {e a : Ty} (he : e.Before c) (ha : a.Before c) (pos : Nat) :
    Keeps c k (unify i e a pos) (fun _ _ _ => True) := by
  intro σ st _ hst hc _
  rw [unify, exec_binding, exec_answer_store]
  exact ⟨le_rfl, (View.size_unify ⟨st.scopes, i, σ.decls⟩ e a).ge, hst.unify i σ.decls (he.mono hc) (ha.mono hc),
    fun _ _ => trivial⟩

theorem keeps_accepts (i : Nat) {e a : Ty} (he : e.Before c) (ha : a.Before c) (pos : Nat) :
    Keeps c k (accepts i e a pos) (fun _ _ _ => True) := by
  intro σ st _ hst hc _
  rw [accepts, exec_binding, exec_answer_store]
  exact ⟨le_rfl, (View.size_accepts ⟨st.scopes, i, σ.decls⟩ e a).ge, hst.accepts i σ.decls (he.mono hc) (ha.mono hc),
    fun _ _ => trivial⟩

end Primitives

end Check

end Verve
