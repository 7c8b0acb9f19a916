import Verve.Check.Infer

/-!
# Running steps of checking

A step of checking (`Check`) reads the setting and changes the store; a fault stops it and
keeps the store as the fault left it. `Check.exec m σ st` is what `m` returns, or the fault
that stopped it, beside the store it leaves.

`Check.Spec I m Q` says that `m` keeps the invariant `I` of the store on every way out,
normal or by a fault, and that every value it returns satisfies `Q`. The invariant holds
after a fault too, so a `Spec` says what a failed step leaves behind as well. Specs compose
along `bind`, `for` loops and case splits (`Spec.bind`, `Spec.forIn`), so a spec of a whole
rule follows from the specs of its steps. The steps that only read the store keep every
invariant (`Spec.of_store`); the others have their own `exec` equations here.
-/

namespace Verve

namespace Check

/-- Runs a step from a store: what it returns or the fault that stopped it, and the store it
leaves. -/
def exec {α : Type} (m : Check α) (σ : Setting) (st : Store) : Except Located α × Store :=
  ((m.run σ).run.run st).run

section Exec

variable {α β : Type} (σ : Setting) (st : Store)

@[simp] theorem exec_throw (e : Located) : (throw e : Check α).exec σ st = (.error e, st) := rfl

theorem exec_bind (m : Check α) (f : α → Check β) :
    (m >>= f).exec σ st = match m.exec σ st with
      | (.ok a, st') => (f a).exec σ st'
      | (.error e, st') => (.error e, st') := by
  simp only [exec, ReaderT.run_bind, ExceptT.run_bind, StateT.run_bind, Id.run_bind]
  rcases ((m.run σ).run.run st).run with ⟨r, st'⟩
  cases r <;> rfl

@[simp] theorem exec_read : (MonadReader.read : Check Setting).exec σ st = (.ok σ, st) := rfl

@[simp] theorem exec_lookupName (i : Nat) (x : String) :
    (lookupName i x).exec σ st = (.ok (st.scopes.get i x), st) := rfl

@[simp] theorem exec_simp (i : Nat) (t : Ty) :
    (simp i t).exec σ st = (.ok (st.scopes.simplify i t), st) := rfl

@[simp] theorem exec_bindName (i : Nat) (x : String) (t : Ty) :
    (bindName i x t).exec σ st = (.ok (), ⟨st.scopes.set i x t, st.fresh⟩) := rfl

@[simp] theorem exec_openFrame (i : Nat) :
    (openFrame i).exec σ st = (.ok st.scopes.frames.size, ⟨(st.scopes.child i).1, st.fresh⟩) := rfl

@[simp] theorem exec_freshGeneric (name : String) :
    (freshGeneric name).exec σ st =
      (.ok (.generic (name ++ "#" ++ Nat.repr (st.fresh + 1))), { st with fresh := st.fresh + 1 }) :=
  rfl

theorem exec_binding (f : View → Ty → Ty → Outcome × Scopes) (i : Nat) (e a : Ty) (pos : Nat) :
    (binding f i e a pos).exec σ st =
      (answer (f ⟨st.scopes, i, σ.decls⟩ e a).1 pos).exec σ
        ⟨(f ⟨st.scopes, i, σ.decls⟩ e a).2, st.fresh⟩ := rfl

theorem exec_answer_store (o : Outcome) (pos : Nat) : ((answer o pos).exec σ st).2 = st := by
  cases o <;> rfl

theorem exec_assignable_store (i : Nat) (e a : Ty) (pos : Nat) :
    ((assignable i e a pos).exec σ st).2 = st :=
  exec_answer_store σ st _ pos

end Exec

/-- `m` keeps the invariant `I` of the store, whether it returns or stops at a fault, and a
value it returns satisfies `Q`. -/
def Spec {α : Type} (I : Store → Prop) (m : Check α) (Q : α → Prop) : Prop :=
  ∀ σ st, I st → I (m.exec σ st).2 ∧ ∀ a, (m.exec σ st).1 = .ok a → Q a

namespace Spec

variable {α β : Type} {I : Store → Prop}

theorem bind {m : Check α} {f : α → Check β} {Q : α → Prop} {R : β → Prop}
    (hm : Spec I m Q) (hf : ∀ a, Q a → Spec I (f a) R) : Spec I (m >>= f) R := by
  intro σ st hI
  rw [exec_bind]
  obtain ⟨hI', hQ⟩ := hm σ st hI
  rcases h : m.exec σ st with ⟨r, st'⟩
  rw [h] at hI' hQ
  cases r with
  | error e => exact ⟨hI', fun _ h => by cases h⟩
  | ok a => exact hf a (hQ a rfl) σ st' hI'

theorem pure {a : α} {Q : α → Prop} (h : Q a) : Spec I (Pure.pure a) Q :=
  fun _ _ hI => ⟨hI, fun _ he => by cases he; exact h⟩

theorem throw {e : Located} {Q : α → Prop} : Spec I (MonadExcept.throw e) Q :=
  fun _ _ hI => ⟨hI, fun _ he => by cases he⟩

/-- Nothing after a fault runs. -/
theorem throw_bind {e : Located} {f : α → Check β} {Q : β → Prop} :
    Spec I (MonadExcept.throw e >>= f) Q :=
  bind (Q := fun _ => False) throw fun _ h => h.elim

theorem mono {m : Check α} {Q Q' : α → Prop} (h : Spec I m Q) (hq : ∀ a, Q a → Q' a) :
    Spec I m Q' :=
  fun σ st hI => ⟨(h σ st hI).1, fun a ha => hq a ((h σ st hI).2 a ha)⟩

/-- A step that leaves the store as it was keeps every invariant. -/
theorem of_store {m : Check α} (h : ∀ σ st, (m.exec σ st).2 = st) : Spec I m (fun _ => True) :=
  fun σ st hI => ⟨by rw [h σ st]; exact hI, fun _ _ => trivial⟩

/-- A step whose only change is to the scopes keeps an invariant that the new scopes keep. -/
theorem of_scopes {P : Scopes → Prop} {m : Check α}
    (h : ∀ σ st, P st.scopes → P (m.exec σ st).2.scopes) :
    Spec (fun st => P st.scopes) m (fun _ => True) :=
  fun σ st hI => ⟨h σ st hI, fun _ _ => trivial⟩

theorem read {Q : Setting → Prop} (h : ∀ σ, Q σ) : Spec I (MonadReader.read : Check Setting) Q :=
  fun σ _ hI => ⟨hI, fun _ he => by cases he; exact h σ⟩

theorem get : Spec I (MonadState.get : Check Store) (fun _ => True) :=
  fun _ _ hI => ⟨hI, fun _ _ => trivial⟩

/-- A `for` loop keeps an invariant that each round keeps. -/
theorem forIn {γ : Type} {l : List γ} {b : α} {f : γ → α → Check (ForInStep α)}
    (hf : ∀ x ∈ l, ∀ b, Spec I (f x b) (fun _ => True)) :
    Spec I (ForIn.forIn l b f) (fun _ => True) := by
  induction l generalizing b with
  | nil => exact pure trivial
  | cons x l ih =>
    rw [List.forIn_cons]
    refine bind (hf x List.mem_cons_self b) fun r _ => ?_
    cases r with
    | done b' => exact pure trivial
    | yield b' => exact ih (fun y hy => hf y (List.mem_cons_of_mem _ hy))

/-- Mapping a step over a list keeps an invariant that each step keeps. -/
theorem mapM {γ : Type} {l : List γ} {f : γ → Check α}
    (hf : ∀ x ∈ l, Spec I (f x) (fun _ => True)) :
    Spec I (l.mapM f) (fun _ => True) := by
  induction l with
  | nil => exact pure trivial
  | cons x l ih =>
    rw [List.mapM_cons]
    exact bind (hf x List.mem_cons_self) fun _ _ =>
      bind (ih fun y hy => hf y (List.mem_cons_of_mem _ hy)) fun _ _ => pure trivial

end Spec

end Check

/-- Checking a program is running the check of its root block from the root frame of its
declarations. -/
theorem check_eq_exec (prog : Program) (maxDepth : Nat) :
    check prog maxDepth = ((Check.typeOf 0 0 .plain prog.body).exec
      ⟨prog.decls, .ofDecls prog.decls, maxDepth, prog.decls.liveIfaces⟩
      ⟨.ofRoot prog.decls.env, 0⟩).1 := rfl

end Verve
