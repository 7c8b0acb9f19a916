import Verve.Proofs.Run
import Verve.Proofs.Placed

/-!
# What checking a node may change

Checking a node opens frames of its own for everything it binds: the frame of a call for
the callee's generics, a trial frame for each widening, the frame of a function, of a case,
of a `let` and of a block. The frames that were there before it started change only where
the node itself assigns: an assignment binds the names on its left in the frame it is
checked in, and a block handed the frame of a `let` checks its items there
(`Node.ownBinds`, `Node.scopeBinds`).

`Scopes.Grows W s0 s` says that `s` grew from `s0` within `W`: every frame of `s0` is still
in `s`, with its parent, and has gained in front only bindings of names that `W` allows in
it. The main result (`Check.typeOf_grows`) is that checking a node, whether it ends with a
type or a fault, keeps the scopes grown from where they started within any `W` that
permits the node's own writes (`Scopes.Permits`).
-/

namespace Verve

namespace Node

/-- The names that the left side of an assignment binds: a name, or the names of a
pattern. -/
def leftNames (l : Node) : List String :=
  match l.form with
  | .ident x => [x]
  | .pattern _ bs => bs.map (·.name)
  | _ => []

mutual

/-- The names that checking a node binds in the frame it is checked in: those on the left of
the assignments it reaches without opening a frame. -/
def ownBinds : Node → List String
  | .mk f _ _ => formOwnBinds f

/-- `ownBinds` of a node of this form. -/
def formOwnBinds : Form → List String
  | .binary _ l r => ownBinds l ++ ownBinds r
  | .unary _ o => ownBinds o
  | .call c as _ => ownBinds c ++ listOwnBinds as
  | .cond c t none => ownBinds c ++ ownBinds t
  | .cond c t (some e) => ownBinds c ++ ownBinds t ++ ownBinds e
  | .list xs => listOwnBinds xs
  | .matchOn v cs => ownBinds v ++ listOwnBinds cs
  | .assign l v => ownBinds v ++ leftNames l
  | .construct _ as => listOwnBinds as
  | .str _ | .num _ | .ident _ | .func _ _ _ | .block _ | .case _ _ | .letIn _ _
  | .pattern _ _ => []

/-- `ownBinds` of nodes checked one after another in one frame. -/
def listOwnBinds : List Node → List String
  | [] => []
  | n :: ns => ownBinds n ++ listOwnBinds ns

end

/-- The names that a block binds in the frame of a `let` that it is handed: those its items
bind in the frame they are checked in. -/
def formScopeBinds : Form → List String
  | .block items => listOwnBinds items
  | _ => []

/-- `formScopeBinds` of a node's form. -/
def scopeBinds (n : Node) : List String := formScopeBinds n.form

/-- The names an assignment binds on its left; none for any other form. -/
def formAssigned : Form → List String
  | .assign l _ => l.leftNames
  | _ => []

/-- `formAssigned` of a node's form. -/
def assigned (n : Node) : List String := formAssigned n.form

mutual

/-- A placed node binds nothing in the frame it is checked in. -/
theorem ownBinds_of_placed : (n : Node) → n.Placed → n.ownBinds = []
  | .mk f _ _, h => (formBinds_of_placed f h).1

/-- A placed form binds nothing in its frame, assigns nothing, and hands nothing to the
frame of a `let`. -/
theorem formBinds_of_placed : (f : Form) → FormPlaced f →
    formOwnBinds f = [] ∧ formAssigned f = [] ∧ formScopeBinds f = []
  | .str _, _ | .num _, _ | .ident _, _ | .pattern _ _, _ | .func _ _ _, _ | .case _ _, _
  | .letIn _ _, _ => ⟨by rw [formOwnBinds], rfl, rfl⟩
  | .binary _ l r, ⟨hl, hr⟩ =>
    ⟨by rw [formOwnBinds, ownBinds_of_placed l hl, ownBinds_of_placed r hr]; rfl, rfl, rfl⟩
  | .unary _ o, h => ⟨by rw [formOwnBinds, ownBinds_of_placed o h], rfl, rfl⟩
  | .block xs, h => ⟨by rw [formOwnBinds], rfl, by rw [formScopeBinds, listOwnBinds_of_placed xs h]⟩
  | .call c as _, ⟨hc, has⟩ =>
    ⟨by rw [formOwnBinds, ownBinds_of_placed c hc, listOwnBinds_of_placed as has]; rfl, rfl, rfl⟩
  | .cond c t none, ⟨hc, ht⟩ =>
    ⟨by rw [formOwnBinds, ownBinds_of_placed c hc, ownBinds_of_placed t ht]; rfl, rfl, rfl⟩
  | .cond c t (some e), ⟨hc, ht, he⟩ =>
    ⟨by rw [formOwnBinds, ownBinds_of_placed c hc, ownBinds_of_placed t ht,
      ownBinds_of_placed e he]; rfl, rfl, rfl⟩
  | .list xs, h => ⟨by rw [formOwnBinds, listOwnBinds_of_placed xs h], rfl, rfl⟩
  | .matchOn v cs, ⟨hv, hcs⟩ =>
    ⟨by rw [formOwnBinds, ownBinds_of_placed v hv, listOwnBinds_of_placed cs hcs]; rfl, rfl, rfl⟩
  | .construct _ as, h => ⟨by rw [formOwnBinds, listOwnBinds_of_placed as h], rfl, rfl⟩
  | .assign _ _, h => h.elim

theorem listOwnBinds_of_placed : (ns : List Node) → ListPlaced ns → listOwnBinds ns = []
  | [], _ => rfl
  | n :: ns, ⟨hn, hns⟩ => by
    rw [listOwnBinds, ownBinds_of_placed n hn, listOwnBinds_of_placed ns hns]
    rfl

end

/-- A head of a `let` binds in its frame the names on its left, and nothing else. -/
theorem PlacedHead.binds {n : Node} (h : n.PlacedHead) :
    n.ownBinds = n.assigned ∧ n.scopeBinds = [] := by
  unfold PlacedHead at h
  split at h
  · rename_i l v _ _
    refine ⟨?_, rfl⟩
    rw [ownBinds, formOwnBinds, ownBinds_of_placed v h.2]
    rfl
  · exact h.elim

/-- **In a tree the reader built, a node binds what it assigns.** It binds in the frame it is
checked in the names on its left when it is an assignment and none otherwise, and as a block
it hands no name to the frame of a `let`. -/
theorem Fits.binds {n : Node} (h : n.Fits) : n.ownBinds = n.assigned ∧ n.scopeBinds = [] := by
  rcases h with h | h
  · obtain ⟨f, sp, ty⟩ := n
    obtain ⟨hown, hassigned, hscope⟩ := formBinds_of_placed f h
    exact ⟨hown.trans hassigned.symm, hscope⟩
  · exact h.binds

end Node

namespace Scopes

/-- `s` grew from `s0` within `W`: it has at least the frames of `s0`, and each of them has
its parent still and has gained in front only bindings of names that `W` allows there. -/
def Grows (W : Nat → String → Prop) (s0 s : Scopes) : Prop :=
  s0.frames.size ≤ s.frames.size ∧
    ∀ j f, s0.frames[j]? = some f → ∃ new : List (String × Ty),
      (∀ b ∈ new, W j b.1) ∧ s.frames[j]? = some ⟨f.parent, new ++ f.binds⟩

/-- `W` permits every name of `xs` in frame `j`, when `j` is a frame of `s0`. -/
def Permits (W : Nat → String → Prop) (s0 : Scopes) (j : Nat) (xs : List String) : Prop :=
  j < s0.frames.size → ∀ x ∈ xs, W j x

section Grows

variable {W W' : Nat → String → Prop} {s0 s : Scopes}

/-- Nothing needs permission in a frame opened after those of `s0`. -/
theorem Permits.of_le {j : Nat} (h : s0.frames.size ≤ j) (xs : List String) :
    s0.Permits W j xs :=
  fun hlt => absurd hlt (by omega)

theorem Permits.nil (j : Nat) : s0.Permits W j [] :=
  fun _ _ hx => absurd hx List.not_mem_nil

theorem Permits.left {j : Nat} {xs ys : List String} (h : s0.Permits W j (xs ++ ys)) :
    s0.Permits W j xs :=
  fun hj x hx => h hj x (List.mem_append_left ys hx)

theorem Permits.right {j : Nat} {xs ys : List String} (h : s0.Permits W j (xs ++ ys)) :
    s0.Permits W j ys :=
  fun hj x hx => h hj x (List.mem_append_right xs hx)

theorem Grows.refl (s : Scopes) : s.Grows W s :=
  ⟨Nat.le_refl _, fun _ f hf => ⟨[], by simp, by cases f; simpa using hf⟩⟩

theorem Grows.mono (h : s0.Grows W s) (hw : ∀ j x, j < s0.frames.size → W j x → W' j x) :
    s0.Grows W' s := by
  refine ⟨h.1, fun j f hf => ?_⟩
  obtain ⟨new, hnew, hs⟩ := h.2 j f hf
  have hj : j < s0.frames.size := (Array.getElem?_eq_some_iff.1 hf).1
  exact ⟨new, fun b hb => hw j b.1 hj (hnew b hb), hs⟩

/-- Binding a name keeps the scopes grown within `W` when `W` allows it in that frame, or the
frame is a new one. -/
theorem Grows.set (h : s0.Grows W s) {i : Nat} {x : String} (t : Ty)
    (hx : i < s0.frames.size → W i x) : s0.Grows W (s.set i x t) := by
  obtain ⟨frames, bound⟩ := s
  refine ⟨by simpa [Scopes.set] using h.1, fun j f hf => ?_⟩
  obtain ⟨new, hnew, hs⟩ := h.2 j f hf
  have hj : j < s0.frames.size := (Array.getElem?_eq_some_iff.1 hf).1
  simp only [Scopes.set, Array.getElem?_modify]
  split
  · rename_i hij
    subst hij
    refine ⟨(x, t) :: new, ?_, by simp [hs]⟩
    intro b hb
    rcases List.mem_cons.1 hb with rfl | hb
    · exact hx hj
    · exact hnew b hb
  · exact ⟨new, hnew, hs⟩

/-- Opening a frame keeps the scopes grown, and the new frame comes after those of `s0`. -/
theorem Grows.child (h : s0.Grows W s) (i : Nat) :
    s0.Grows W (s.child i).1 ∧ s0.frames.size ≤ (s.child i).2 := by
  obtain ⟨frames, bound⟩ := s
  refine ⟨⟨by simp [Scopes.child]; have := h.1; simp at this; omega, fun j f hf => ?_⟩, h.1⟩
  obtain ⟨new, hnew, hs⟩ := h.2 j f hf
  have hj : j < s0.frames.size := (Array.getElem?_eq_some_iff.1 hf).1
  have hne : j ≠ frames.size := by have := h.1; simp at this; omega
  exact ⟨new, hnew, by simpa [Scopes.child, Array.getElem?_push, hne] using hs⟩

/-- Binding what a search found in a frame after those of `s0` keeps the scopes grown. -/
theorem Grows.commit (h : s0.Grows W s) {i : Nat} (hi : s0.frames.size ≤ i) (p : Found) :
    s0.Grows W (s.commit i p) := by
  unfold Scopes.commit
  induction latestBindings p generalizing s with
  | nil => exact h
  | cons b bs ih => exact ih (h.set b.2 fun hlt => absurd hlt (by omega))

theorem lookup_append_of_not_mem {new binds : List (String × Ty)} {x : String}
    (h : ∀ b ∈ new, b.1 ≠ x) : (new ++ binds).lookup x = binds.lookup x := by
  induction new with
  | nil => rfl
  | cons b new ih =>
    obtain ⟨y, u⟩ := b
    have hy : y ≠ x := h (y, u) List.mem_cons_self
    have hxy : (x == y) = false := by simpa using fun e => hy e.symm
    simp only [List.cons_append, List.lookup_cons, hxy]
    exact ih fun b hb => h b (List.mem_cons_of_mem _ hb)

/-- A name that `W` allows in no frame is looked up in grown scopes, from a frame that was
there, as it was. -/
theorem Grows.get_eq (h : s0.Grows W s) {x : String} (hx : ∀ j, ¬ W j x) :
    ∀ i, i < s0.frames.size → s.get i x = s0.get i x :=
  get_congr fun j hj => by
    obtain ⟨f, hf⟩ : ∃ f, s0.frames[j]? = some f := ⟨_, Array.getElem?_eq_getElem hj⟩
    obtain ⟨new, hnew, hs⟩ := h.2 j f hf
    -- the frame only gained bindings of names other than `x`
    have hl : (new ++ f.binds).lookup x = f.binds.lookup x :=
      lookup_append_of_not_mem fun b hb hbx => hx j (hbx ▸ hnew b hb)
    rw [hs, hf, Option.map_some, Option.map_some, hl]

/-- A frame of `s0` in which `W` allows nothing is in grown scopes as it was. -/
theorem Grows.frame_eq (h : s0.Grows W s) {j : Nat} (hj : ∀ x, ¬ W j x) :
    j < s0.frames.size → s.frames[j]? = s0.frames[j]? := by
  intro hlt
  obtain ⟨f, hf⟩ : ∃ f, s0.frames[j]? = some f := ⟨_, Array.getElem?_eq_getElem hlt⟩
  obtain ⟨new, hnew, hs⟩ := h.2 j f hf
  cases new with
  | nil => rw [hs, hf]; rfl
  | cons b _ => exact absurd (hnew b List.mem_cons_self) (hj b.1)

end Grows

end Scopes

namespace View

variable {W : Nat → String → Prop} {s0 : Scopes}

/-- Unifying binds only in the view's frame, so in a frame after those of `s0` it keeps the
scopes grown. -/
theorem grows_unify {v : View} (h : s0.Grows W v.scopes) (hi : s0.frames.size ≤ v.frame)
    (e a : Ty) : s0.Grows W (v.unify e a).2 := by
  obtain ⟨scopes, frame, decls⟩ := v
  unfold unify
  split
  · exact h.commit hi _
  · exact h

theorem grows_accepts {v : View} (h : s0.Grows W v.scopes) (hi : s0.frames.size ≤ v.frame)
    (e a : Ty) : s0.Grows W (v.accepts e a).2 := by
  unfold accepts
  split
  · exact grows_unify h hi e a
  · exact h

end View

namespace Check

section Helpers

variable {W : Nat → String → Prop} {s0 : Scopes}

open Scopes

theorem spec_bindName {i : Nat} {x : String} (t : Ty) (hx : i < s0.frames.size → W i x) :
    Spec (s0.Grows W ·.scopes) (bindName i x t) (fun _ => True) :=
  Spec.of_scopes fun σ st h => by simpa using h.set t hx

/-- A new frame comes after those of `s0`. -/
theorem spec_openFrame (i : Nat) :
    Spec (s0.Grows W ·.scopes) (openFrame i) (s0.frames.size ≤ ·) :=
  fun σ st h => ⟨by simpa using (h.child i).1, fun j hj => by
    simp only [exec_openFrame, Except.ok.injEq] at hj
    subst hj
    exact (h.child i).2⟩

theorem spec_lookupName (i : Nat) (x : String) :
    Spec (s0.Grows W ·.scopes) (lookupName i x) (fun _ => True) :=
  Spec.of_store fun _ _ => rfl

theorem spec_simp (i : Nat) (t : Ty) : Spec (s0.Grows W ·.scopes) (simp i t) (fun _ => True) :=
  Spec.of_store fun _ _ => rfl

theorem spec_freshGeneric (name : String) :
    Spec (s0.Grows W ·.scopes) (freshGeneric name) (fun _ => True) :=
  Spec.of_scopes fun _ _ h => h

theorem spec_assignable (i : Nat) (e a : Ty) (pos : Nat) :
    Spec (s0.Grows W ·.scopes) (assignable i e a pos) (fun _ => True) :=
  Spec.of_store fun σ st => exec_assignable_store σ st i e a pos

theorem spec_unify {i : Nat} (hi : s0.frames.size ≤ i) (e a : Ty) (pos : Nat) :
    Spec (s0.Grows W ·.scopes) (unify i e a pos) (fun _ => True) := by
  intro σ st h
  refine ⟨?_, fun _ _ => trivial⟩
  rw [unify, exec_binding, exec_answer_store]
  exact View.grows_unify (v := ⟨st.scopes, i, σ.decls⟩) h hi e a

theorem spec_accepts {i : Nat} (hi : s0.frames.size ≤ i) (e a : Ty) (pos : Nat) :
    Spec (s0.Grows W ·.scopes) (accepts i e a pos) (fun _ => True) := by
  intro σ st h
  refine ⟨?_, fun _ _ => trivial⟩
  rw [accepts, exec_binding, exec_answer_store]
  exact View.grows_accepts (v := ⟨st.scopes, i, σ.decls⟩) h hi e a

theorem spec_installGenerics {scope : Nat} (hs : s0.frames.size ≤ scope) (sig : Sig) :
    Spec (s0.Grows W ·.scopes) (installGenerics scope sig) (fun _ => True) := by
  have hb : ∀ x t, Spec (s0.Grows W ·.scopes) (bindName scope x t) (fun _ => True) :=
    fun _ t => spec_bindName t fun hlt => absurd hlt (by omega)
  unfold installGenerics
  refine Spec.bind (Spec.forIn fun g _ _ => Spec.bind (hb _ _) fun _ _ => Spec.pure trivial)
    fun _ _ => Spec.bind (Spec.read fun _ => trivial) fun σ _ => ?_
  split
  · exact hb _ _
  · exact Spec.pure trivial

theorem spec_closeGenerics (gs : List String) {scope : Nat} (hs : s0.frames.size ≤ scope) :
    Spec (s0.Grows W ·.scopes) (closeGenerics gs scope) (fun _ => True) := by
  unfold closeGenerics
  refine Spec.bind (Spec.forIn fun g _ _ => Spec.bind (spec_simp _ _) fun t _ => ?_)
    fun _ _ => Spec.pure trivial
  split
  · exact Spec.bind (spec_freshGeneric g) fun f _ =>
      Spec.bind (spec_bindName f fun hlt => absurd hlt (by omega)) fun _ _ => Spec.pure trivial
  · exact Spec.pure trivial

/-- Widening compares the two types in trial frames of its own. -/
theorem spec_widen (env : Nat) (cur : Option Ty) (next : Ty) (pos : Nat) :
    Spec (s0.Grows W ·.scopes) (widen env cur next pos) (fun _ => True) := by
  unfold widen
  split
  · exact Spec.pure trivial
  · refine Spec.bind (spec_openFrame env) fun trial ht => ?_
    refine Spec.bind (spec_accepts ht _ _ pos) fun b _ => ?_
    split
    · exact Spec.bind (spec_simp _ _) fun _ _ => Spec.pure trivial
    · refine Spec.bind (spec_openFrame env) fun trial' ht' => ?_
      refine Spec.bind (spec_accepts ht' _ _ pos) fun b' _ => ?_
      split
      · exact Spec.bind (spec_simp _ _) fun _ _ => Spec.pure trivial
      · exact Spec.pure trivial

theorem spec_lookupCtor (env : Nat) (name : String) (pos : Nat) :
    Spec (s0.Grows W ·.scopes) (lookupCtor env name pos) (fun _ => True) := by
  unfold lookupCtor
  refine Spec.bind (spec_lookupName env name) fun _ _ => ?_
  split
  · exact Spec.pure trivial
  · exact Spec.throw

/-- Binding a pattern's names writes them in `scope`, and the constructor's generics in a
frame of its own. -/
theorem spec_bindPattern (p : Node) (csig : Sig) (value : Option Ty) {scope : Nat}
    (hs : s0.Permits W scope p.leftNames) :
    Spec (s0.Grows W ·.scopes) (bindPattern p csig value scope) (fun _ => True) := by
  unfold bindPattern
  split
  · rename_i c bs hp
    have hnames : ∀ b ∈ bs, b.name ∈ p.leftNames := fun b hb => by
      simp only [Node.leftNames, hp]
      exact List.mem_map_of_mem hb
    dsimp only
    split
    · exact Spec.throw_bind
    refine Spec.bind (spec_openFrame scope) fun cs hcs => ?_
    refine Spec.bind (Spec.forIn fun g _ _ =>
      Spec.bind (spec_bindName _ fun hlt => absurd hlt (by omega)) fun _ _ => Spec.pure trivial)
      fun _ _ => ?_
    -- with a value to unify or without, the rest of the binding is the same
    split
    case' h_1 => refine Spec.bind (spec_unify hcs _ _ _) fun _ _ => ?_
    -- the names of the pattern go to `scope`, everything else to the new frame `cs`
    all_goals
      refine Spec.bind (spec_closeGenerics _ hcs) fun _ _ => ?_
      refine Spec.bind (Spec.forIn fun bp hbp _ => ?_) fun _ _ => ?_
      · refine Spec.bind (spec_simp _ _) fun t _ =>
          Spec.bind (spec_bindName t fun hlt => hs hlt _ (hnames _ (List.of_mem_zip hbp).1))
            fun _ _ => Spec.pure trivial
      · exact Spec.bind (spec_simp _ _) fun _ _ => Spec.pure trivial
  · exact Spec.pure trivial

/-- The frame of a call comes after those of `s0`. -/
theorem spec_openCall (env : Nat) (f : Sig) (loc count : Nat) :
    Spec (s0.Grows W ·.scopes) (openCall env f loc count) (s0.frames.size ≤ ·) := by
  unfold openCall
  split
  · exact Spec.throw_bind
  dsimp only
  refine Spec.bind (spec_openFrame env) fun scope hs => ?_
  exact Spec.bind (spec_installGenerics hs f) fun _ _ => Spec.pure hs

theorem spec_closeCall (f : Sig) {scope : Nat} (hs : s0.frames.size ≤ scope) :
    Spec (s0.Grows W ·.scopes) (closeCall f scope) (fun _ => True) := by
  unfold closeCall
  refine Spec.bind (spec_closeGenerics _ hs) fun _ _ => ?_
  split
  · split
    · exact spec_simp _ _
    · exact Spec.bind (Spec.mapM fun _ _ => spec_simp _ _) fun _ _ => Spec.pure trivial
  · exact spec_simp _ _

theorem spec_dispatchOf (env scope : Nat) (f : Sig) :
    Spec (s0.Grows W ·.scopes) (dispatchOf env scope f) (fun _ => True) := by
  unfold dispatchOf
  refine Spec.bind (Spec.read fun _ => trivial) fun σ _ => ?_
  split
  · exact Spec.pure trivial
  · refine Spec.bind (spec_simp _ _) fun t _ => ?_
    split
    · exact Spec.pure trivial
    · refine Spec.bind (spec_lookupName _ _) fun _ _ => ?_
      split
      · exact Spec.pure trivial
      · exact Spec.pure trivial

mutual

/-- **Checking a node keeps to its own writes.** Checked in frame `env`, whether it ends with
a type or a fault, a node leaves every frame that was there before it as it was, except for
the names it binds in `env` and, when it is a block handed the frame of a `let`, the names
its items bind there. -/
theorem typeOf_grows (d env : Nat) (ctx : Ctx) :
    (n : Node) → s0.Permits W env n.ownBinds →
      (∀ j, ctx = .scope j → s0.Permits W j n.scopeBinds) →
      Spec (s0.Grows W ·.scopes) (typeOf d env ctx n) (fun _ => True)
  | .mk f sp _, hown, hscope => by
    rw [typeOf]
    refine Spec.bind (Spec.read fun _ => trivial) fun σ _ => ?_
    dsimp only
    split
    · exact Spec.throw_bind
    exact Spec.bind (inferForm_grows (d + 1) env ctx sp f hown hscope) fun _ _ => Spec.pure trivial

theorem inferForm_grows (d env : Nat) (ctx : Ctx) (sp : Span) :
    (f : Form) → s0.Permits W env (Node.formOwnBinds f) →
      (∀ j, ctx = .scope j → s0.Permits W j (Node.formScopeBinds f)) →
      Spec (s0.Grows W ·.scopes) (inferForm d env ctx sp f) (fun _ => True)
  | .str _, _, _ => by
    unfold inferForm
    exact Spec.bind (Spec.read fun _ => trivial) fun _ _ => Spec.pure trivial
  | .num _, _, _ => by
    unfold inferForm
    exact Spec.bind (Spec.read fun _ => trivial) fun _ _ => Spec.pure trivial
  | .ident x, _, _ => by
    unfold inferForm
    refine Spec.bind (spec_lookupName env x) fun _ _ => ?_
    split
    · exact Spec.pure trivial
    · exact Spec.throw
  | .binary op l r, hown, _ => by
    unfold inferForm
    refine Spec.bind (Spec.read fun _ => trivial) fun _ _ => ?_
    refine Spec.bind (typeOf_grows d env .plain l hown.left nofun) fun _ _ => ?_
    refine Spec.bind (spec_simp _ _) fun _ _ => Spec.bind (spec_assignable _ _ _ _) fun _ _ => ?_
    dsimp only
    split
    · refine Spec.bind (typeOf_grows d env .plain r hown.right nofun) fun _ _ => ?_
      refine Spec.bind (spec_simp _ _) fun _ _ => Spec.bind (spec_assignable _ _ _ _) fun _ _ => ?_
      split
      · exact Spec.pure trivial
      · exact Spec.throw_bind
    · exact Spec.throw_bind
  | .unary op o, hown, _ => by
    unfold inferForm
    refine Spec.bind (typeOf_grows d env .plain o hown nofun) fun _ _ => ?_
    exact Spec.bind (Spec.read fun _ => trivial) fun _ _ => Spec.pure trivial
  | .func x ps body, _, _ => by
    unfold inferForm
    refine Spec.bind (spec_lookupName env x) fun _ _ => ?_
    extract_lets jp
    have hk : ∀ sig, Spec (s0.Grows W ·.scopes) (jp sig) (fun _ => True) := fun sig => by
      dsimp only [jp]
      split
      · exact Spec.throw_bind
      -- the parameters and the body go to the function's own frame
      refine Spec.bind (spec_openFrame env) fun scope hs => ?_
      refine Spec.bind (spec_installGenerics hs sig) fun _ _ => ?_
      refine Spec.bind (Spec.forIn fun _ _ _ => Spec.bind
        (spec_bindName _ fun hlt => absurd hlt (by omega)) fun _ _ => Spec.pure trivial)
        fun _ _ => ?_
      refine Spec.bind (typeOf_grows d scope .plain body (Permits.of_le hs _) nofun) fun _ _ => ?_
      refine Spec.bind (spec_simp _ _) fun _ _ => Spec.bind (spec_simp _ _) fun _ _ => ?_
      refine Spec.bind (spec_accepts hs _ _ _) fun _ _ => ?_
      split
      · exact Spec.pure trivial
      · exact Spec.throw_bind
    split
    · exact Spec.bind (Spec.pure (Q := fun _ => True) trivial) fun sig _ => hk sig
    · exact Spec.throw_bind
  | .block items, _, hscope => by
    unfold inferForm
    extract_lets jp
    have hk : ∀ scope, s0.Permits W scope (Node.listOwnBinds items) →
        Spec (s0.Grows W ·.scopes) (jp scope) (fun _ => True) := fun scope hs => by
      refine Spec.bind (Spec.read fun _ => trivial) fun _ _ => ?_
      exact Spec.bind (typeBlock_grows d scope _ items hs) fun _ _ => Spec.pure trivial
    -- the items go to the frame a `let` hands over, or to a new one
    cases ctx with
    | scope j => exact Spec.bind (Spec.pure (hscope j rfl)) hk
    | plain => exact Spec.bind (spec_openFrame env) fun _ h => hk _ (Permits.of_le h _)
    | subject _ => exact Spec.bind (spec_openFrame env) fun _ h => hk _ (Permits.of_le h _)
  | .call callee args _, hown, _ => by
    unfold inferForm
    refine Spec.bind (typeOf_grows d env .plain callee hown.left nofun) fun _ _ => ?_
    refine Spec.bind (spec_simp _ _) fun _ _ => ?_
    extract_lets jp
    have hk : ∀ f, Spec (s0.Grows W ·.scopes) (jp f) (fun _ => True) := fun f => by
      refine Spec.bind (spec_openCall env f _ _) fun scope hs => ?_
      refine Spec.bind (typeArgs_grows d env scope f hs 1 args f.params hown.right) fun _ _ => ?_
      refine Spec.bind (spec_closeCall f hs) fun _ _ => ?_
      refine Spec.bind (spec_dispatchOf env scope f) fun _ _ => ?_
      exact Spec.bind (spec_simp _ _) fun _ _ => Spec.pure trivial
    split
    · exact Spec.bind (Spec.pure (Q := fun _ => True) trivial) fun f _ => hk f
    · exact Spec.throw_bind
  | .cond c t none, hown, _ => by
    unfold inferForm
    refine Spec.bind (typeOf_grows d env .plain c hown.left nofun) fun _ _ => ?_
    refine Spec.bind (typeOf_grows d env .plain t hown.right nofun) fun _ _ => ?_
    exact Spec.bind (spec_simp _ _) fun _ _ => Spec.pure trivial
  | .cond c t (some e), hown, _ => by
    unfold inferForm
    refine Spec.bind (typeOf_grows d env .plain c hown.left.left nofun) fun _ _ => ?_
    refine Spec.bind (typeOf_grows d env .plain t hown.left.right nofun) fun _ _ => ?_
    refine Spec.bind (spec_simp _ _) fun _ _ => ?_
    refine Spec.bind (typeOf_grows d env .plain e hown.right nofun) fun _ _ => ?_
    refine Spec.bind (spec_simp _ _) fun _ _ => ?_
    refine Spec.bind (spec_widen env _ _ _) fun _ _ => ?_
    split
    · exact Spec.pure trivial
    · exact Spec.throw
  | .list items, hown, _ => by
    unfold inferForm
    refine Spec.bind (typeItems_grows d env none items hown) fun ⟨elem, items'⟩ _ => ?_
    dsimp -zeta only
    extract_lets jp
    have hk : ∀ elem, Spec (s0.Grows W ·.scopes) (jp elem) (fun _ => True) := fun _ =>
      Spec.bind (Spec.read fun _ => trivial) fun _ _ => Spec.pure trivial
    split
    · exact Spec.bind (spec_simp _ _) fun elem _ => hk elem
    · refine Spec.bind (Spec.read fun _ => trivial) fun _ _ => ?_
      exact Spec.bind (spec_freshGeneric _) fun elem _ => hk elem
  | .matchOn value cases, hown, _ => by
    unfold inferForm
    refine Spec.bind (typeOf_grows d env .plain value hown.left nofun) fun _ _ => ?_
    refine Spec.bind (spec_simp _ _) fun subject _ => ?_
    dsimp only
    split
    · exact Spec.throw_bind
    refine Spec.bind (typeCases_grows d env subject none cases hown.right) fun _ _ => ?_
    split
    · exact Spec.bind (spec_simp _ _) fun _ _ => Spec.pure trivial
    · refine Spec.bind (Spec.read fun _ => trivial) fun _ _ => ?_
      exact Spec.bind (Spec.pure (Q := fun _ => True) trivial) fun _ _ => Spec.pure trivial
  | .case p body, _, _ => by
    unfold inferForm
    split
    · refine Spec.bind (spec_lookupCtor env _ _) fun csig _ => ?_
      -- the pattern's names and the body go to the case's own frame
      refine Spec.bind (spec_openFrame env) fun scope hs => ?_
      refine Spec.bind (spec_bindPattern p csig _ (Permits.of_le hs _)) fun _ _ => ?_
      exact Spec.bind (typeOf_grows d scope .plain body (Permits.of_le hs _) nofun) fun _ _ =>
        Spec.pure trivial
    · exact Spec.throw
  | .letIn assignments body, _, _ => by
    unfold inferForm
    -- the assignments and the body's items go to the `let`'s own frame
    refine Spec.bind (spec_openFrame env) fun scope hs => ?_
    refine Spec.bind (typeAssignments_grows d scope assignments (Permits.of_le hs _))
      fun _ _ => ?_
    refine Spec.bind (typeOf_grows d scope (.scope scope) body (Permits.of_le hs _)
      fun j hj => ?_) fun _ _ => Spec.pure trivial
    cases hj
    exact Permits.of_le hs _
  | .assign left value, hown, _ => by
    unfold inferForm
    refine Spec.bind (typeOf_grows d env .plain value hown.left nofun) fun _ _ => ?_
    refine Spec.bind (spec_simp _ _) fun v _ => ?_
    split
    · rename_i x hx
      refine Spec.bind (spec_bindName v fun he => hown.right he x ?_) fun _ _ => Spec.pure trivial
      simp [Node.leftNames, hx]
    · refine Spec.bind (spec_lookupCtor env _ _) fun csig _ => ?_
      refine Spec.bind (spec_assignable _ _ _ _) fun _ _ => ?_
      dsimp only
      split
      · exact Spec.bind (spec_bindPattern left csig _ hown.right) fun _ _ => Spec.pure trivial
      · exact Spec.throw_bind
    · exact Spec.throw
  | .construct x args, hown, _ => by
    unfold inferForm
    refine Spec.bind (spec_lookupName env x) fun _ _ => ?_
    extract_lets jp
    have hk : ∀ csig, Spec (s0.Grows W ·.scopes) (jp csig) (fun _ => True) := fun csig => by
      refine Spec.bind (spec_openCall env csig _ _) fun scope hs => ?_
      refine Spec.bind (typeArgs_grows d env scope csig hs 1 args csig.params hown) fun _ _ => ?_
      exact Spec.bind (spec_closeCall csig hs) fun _ _ => Spec.pure trivial
    split
    · exact Spec.bind (Spec.pure (Q := fun _ => True) trivial) fun csig _ => hk csig
    · exact Spec.throw_bind
  | .pattern c _, _, _ => by
    unfold inferForm
    exact Spec.bind (spec_lookupCtor env c sp.start) fun _ _ => Spec.pure trivial

theorem typeBlock_grows (d scope : Nat) (last : Ty) :
    (items : List Node) → s0.Permits W scope (Node.listOwnBinds items) →
      Spec (s0.Grows W ·.scopes) (typeBlock d scope last items) (fun _ => True)
  | [], _ => by
    unfold typeBlock
    exact Spec.pure trivial
  | n :: ns, hw => by
    unfold typeBlock
    refine Spec.bind (typeOf_grows d scope .plain n hw.left nofun) fun _ _ => ?_
    exact Spec.bind (typeBlock_grows d scope _ ns hw.right) fun _ _ => Spec.pure trivial

theorem typeArgs_grows (d env scope : Nat) (f : Sig) (hs : s0.frames.size ≤ scope) :
    (pos : Nat) → (as : List Node) → (ps : List Ty) → s0.Permits W env (Node.listOwnBinds as) →
      Spec (s0.Grows W ·.scopes) (typeArgs d env scope f pos as ps) (fun _ => True)
  | pos, a :: as, p :: ps, hw => by
    unfold typeArgs
    refine Spec.bind (spec_simp _ _) fun expected _ => ?_
    refine Spec.bind (typeOf_grows d env .plain a hw.left nofun) fun _ _ => ?_
    refine Spec.bind (spec_simp _ _) fun _ _ => ?_
    refine Spec.bind (spec_accepts hs _ _ _) fun _ _ => ?_
    dsimp only
    split
    · exact Spec.bind (typeArgs_grows d env scope f hs (pos + 1) as ps hw.right) fun _ _ =>
        Spec.pure trivial
    · split
      · exact Spec.throw_bind
      · exact Spec.throw_bind
  | pos, [], _, _ => by
    unfold typeArgs
    exact Spec.pure trivial
  | pos, _ :: _, [], _ => by
    unfold typeArgs
    exact Spec.pure trivial

theorem typeItems_grows (d env : Nat) :
    (elem : Option Ty) → (items : List Node) → s0.Permits W env (Node.listOwnBinds items) →
      Spec (s0.Grows W ·.scopes) (typeItems d env elem items) (fun _ => True)
  | _, [], _ => by
    unfold typeItems
    exact Spec.pure trivial
  | elem, n :: ns, hw => by
    unfold typeItems
    refine Spec.bind (typeOf_grows d env .plain n hw.left nofun) fun _ _ => ?_
    refine Spec.bind (spec_simp _ _) fun _ _ => ?_
    refine Spec.bind (spec_widen env _ _ _) fun _ _ => ?_
    split
    · exact Spec.bind (typeItems_grows d env _ ns hw.right) fun _ _ => Spec.pure trivial
    · exact Spec.throw

theorem typeCases_grows (d env : Nat) (subject : Ty) :
    (result : Option Ty) → (cases : List Node) → s0.Permits W env (Node.listOwnBinds cases) →
      Spec (s0.Grows W ·.scopes) (typeCases d env subject result cases) (fun _ => True)
  | _, [], _ => by
    unfold typeCases
    exact Spec.pure trivial
  | result, c :: cs, hw => by
    unfold typeCases
    refine Spec.bind (typeOf_grows d env (.subject subject) c hw.left nofun) fun _ _ => ?_
    refine Spec.bind (spec_simp _ _) fun _ _ => ?_
    refine Spec.bind (spec_widen env _ _ _) fun _ _ => ?_
    split
    · exact Spec.bind (typeCases_grows d env subject _ cs hw.right) fun _ _ => Spec.pure trivial
    · exact Spec.throw

theorem typeAssignments_grows (d scope : Nat) :
    (as : List Node) → s0.Permits W scope (Node.listOwnBinds as) →
      Spec (s0.Grows W ·.scopes) (typeAssignments d scope as) (fun _ => True)
  | [], _ => by
    unfold typeAssignments
    exact Spec.pure trivial
  | a :: as, hw => by
    unfold typeAssignments
    refine Spec.bind (typeOf_grows d scope .plain a hw.left nofun) fun _ _ => ?_
    exact Spec.bind (typeAssignments_grows d scope as hw.right) fun _ _ => Spec.pure trivial

end

/-- A node that binds what it assigns keeps, whether it ends with a type or a fault, the
scopes grown within what it assigns in its own frame. -/
theorem typeOf_grows_of_fits {n : Node} (hn : n.Fits) (σ : Setting) (st : Store)
    (d env : Nat) (ctx : Ctx) :
    st.scopes.Grows (fun j x => j = env ∧ x ∈ n.assigned) ((typeOf d env ctx n).exec σ st).2.scopes := by
  obtain ⟨hown, hscope⟩ := hn.binds
  have hspec : Spec (st.scopes.Grows (fun j x => j = env ∧ x ∈ n.assigned) ·.scopes)
      (typeOf d env ctx n) (fun _ => True) :=
    typeOf_grows d env ctx n (fun _ x hx => ⟨rfl, hown ▸ hx⟩)
      (fun j _ _ x hx => absurd (hscope ▸ hx) List.not_mem_nil)
  exact (hspec σ st (Grows.refl _)).1

/-- **Checking a node of a read program keeps every binding but those it assigns.** Take any
node of a program the reader built, checked in any frame, with any surroundings, from any
store. Whether the check ends with a type or a fault, every frame that was there before is
still there with its parent, and has gained bindings only in the node's own frame and only of
the names on its left when it is an assignment; so a name it does not assign is looked up
as before from every frame that was there. Checking the whole program leaves its root frame,
the frame of its declarations, as it was. -/
theorem typeOf_keeps_bindings {toks : Array Token} {decls : Decls} {prog : Program}
    (hp : Parse.program toks decls = .ok prog) {n : Node} (hn : n ∈ prog.body.preorder)
    (σ : Setting) (st : Store) (d env : Nat) (ctx : Ctx) :
    st.scopes.Grows (fun j x => j = env ∧ x ∈ n.assigned)
        ((typeOf d env ctx n).exec σ st).2.scopes ∧
      (∀ i x, i < st.scopes.frames.size → x ∉ n.assigned →
        ((typeOf d env ctx n).exec σ st).2.scopes.get i x = st.scopes.get i x) ∧
      ((typeOf 0 0 .plain prog.body).exec σ ⟨.ofRoot prog.decls.env, 0⟩).2.scopes.frames[0]? =
        (Scopes.ofRoot prog.decls.env).frames[0]? := by
  have hplaced := Parse.program_placed hp
  have hgrow := typeOf_grows_of_fits (Node.fits_of_mem_preorder hplaced hn) σ st d env ctx
  refine ⟨hgrow, fun i x hi hx => hgrow.get_eq (fun j hj => hx hj.2) i hi, ?_⟩
  -- the root block assigns nothing
  have hnil : prog.body.assigned = [] :=
    (Node.Fits.binds (.inl hplaced)).1.symm.trans (Node.ownBinds_of_placed _ hplaced)
  have hroot := typeOf_grows_of_fits (.inl hplaced) σ ⟨.ofRoot prog.decls.env, 0⟩ 0 0 .plain
  exact hroot.frame_eq (fun x hx => absurd (hnil ▸ hx.2) List.not_mem_nil) Nat.zero_lt_one

/-- The tokens of `let x = y { x }`. -/
def letTokens : Array Token :=
  #[⟨.kwLet, "let", ⟨0, 3⟩⟩, ⟨.identifier, "x", ⟨4, 5⟩⟩, ⟨.assignment, "=", ⟨6, 7⟩⟩,
    ⟨.identifier, "y", ⟨8, 9⟩⟩, ⟨.openCurly, "\x7b", ⟨10, 11⟩⟩, ⟨.identifier, "x", ⟨12, 13⟩⟩,
    ⟨.closeCurly, "\x7d", ⟨14, 15⟩⟩]

/-- The assignment `x = y` as the reader builds it from `letTokens`. -/
def letAssignment : Node :=
  .mk (.assign (.mk (.ident "x") ⟨4, 5⟩ none) (.mk (.ident "y") ⟨8, 9⟩ none)) ⟨4, 9⟩ none

/-- The root block the reader builds from `letTokens`. -/
def letBody : Node :=
  .mk (.block [.mk (.letIn [letAssignment]
    (.mk (.block [.mk (.ident "x") ⟨12, 13⟩ none]) ⟨10, 15⟩ none)) ⟨0, 15⟩ none]) ⟨0, 15⟩ none

/-- Checking the assignment of `let x = y { x }` in the root frame of the initial declarations
keeps every binding there but that of `x`. -/
theorem typeOf_keeps_bindings_let :
    Parse.program letTokens = .ok ⟨letBody, .initial⟩ ∧ letAssignment ∈ letBody.preorder ∧
      ∀ i x, i < 1 → x ∉ letAssignment.assigned →
        ((typeOf 0 0 .plain letAssignment).exec ⟨.initial, .ofDecls .initial, 8, []⟩
          ⟨.ofRoot Decls.initial.env, 0⟩).2.scopes.get i x =
          (Scopes.ofRoot Decls.initial.env).get i x :=
  ⟨rfl, .tail _ (.tail _ (.head _)),
    (@typeOf_keeps_bindings letTokens .initial ⟨letBody, .initial⟩ rfl letAssignment
      (.tail _ (.tail _ (.head _))) ⟨.initial, .ofDecls .initial, 8, []⟩
      ⟨.ofRoot Decls.initial.env, 0⟩ 0 0 .plain).2.1⟩

end Helpers

end Check

end Verve
