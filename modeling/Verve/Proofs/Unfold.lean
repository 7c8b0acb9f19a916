import Mathlib.Data.List.Forall2
import Mathlib.Data.Nat.Find
import Verve.Proofs.Chains
import Verve.Proofs.Relabel

/-!
# Unfolding generics

What a generic stands for is what its bindings lead to: replace it by the type it is bound
to, and the generics in that by theirs, and so on. `Ty.Unfolds L d t a` says that doing so
with the bindings `L`, nesting at most `d` deep, turns `t` into a type that `Ty.same` takes
for `a`. Only basic types, enums, type constructors, applications and generics unfold, and a
generic bound to
itself does not: a generic unfolds exactly when its walk ends in a type (`Ty.Unfolds.ends`),
by following that walk (`Ty.unfolds_generic_of_reaches`, `Ty.Unfolds.of_reaches`).

Unfolding is a function up to `same` (`Ty.Unfolds.same`), and it is what simplifying computes:

* `Scopes.simplifyWith_of_unfolds`: simplifying a type that unfolds gives its unfolding;
* `Scopes.unfolds_of_simplifyWith`: a well-formed type whose simplification is a type with
  no generic unfolds to it.

Well-formed types (`Ty.WellFormed`) are the types of values: basic types, generics, enums
with no generics, and applications of a head to as many arguments as it takes
(`Ty.TakesArgs`): an enum to as many as it has generics, at least one, or a type constructor
to as many as its arity.
-/

namespace Verve

namespace Ty

mutual

theorem same_refl : ∀ t : Ty, t.same t = true
  | .basic _ | .generic _ | .iface _ | .enum _ | .data _ | .ctor .. => by simp [same]
  | .app h as => by simp [same, same_refl h, sameList_refl as]
  | .fn _ ps r _ _ => by simp [same, sameList_refl ps, same_refl r]

theorem sameList_refl : ∀ ts : List Ty, sameList ts ts = true
  | [] => rfl
  | t :: ts => by simp [sameList, same_refl t, sameList_refl ts]

end

theorem sameList_iff_forall₂ : ∀ {as bs : List Ty},
    sameList as bs = true ↔ List.Forall₂ (fun a b => a.same b = true) as bs
  | [], [] => by simp [sameList]
  | [], _ :: _ | _ :: _, [] => by simp [sameList]
  | a :: as, b :: bs => by simp [sameList, sameList_iff_forall₂]

/-- A head of an application that takes `n` arguments, for a count of generics of each enum
(by its declaration number): an enum with `n` generics, at least one, or a type constructor
of arity `n`. -/
def TakesArgs (arity : Nat → Nat) : Ty → Nat → Prop
  | .enum r, n => 0 < n ∧ arity r.id = n
  | .data r, n => r.arity = n
  | _, _ => False

/-- Well-formed types, for a count of generics of each enum (by its declaration number):
basic types, generics, enums with no generics, and applications of a head to as many
arguments as it takes, each well-formed. -/
inductive WellFormed (arity : Nat → Nat) : Ty → Prop
  | basic (x : String) : WellFormed arity (.basic x)
  | generic (x : String) : WellFormed arity (.generic x)
  | enum {r : EnumRef} : arity r.id = 0 → WellFormed arity (.enum r)
  | app {h : Ty} {args : List Ty} : h.TakesArgs arity args.length →
      (∀ a ∈ args, WellFormed arity a) → WellFormed arity (.app h args)

/-- `Unfolds L d t a`: replacing each generic of `t` by its binding in `L`, and so on within
what replaces it, nesting at most `d` deep, gives a type that `same` takes for `a`. -/
def Unfolds (L : String → Option Ty) : Nat → Ty → Ty → Prop
  | 0, _, _ => False
  | _ + 1, .basic x, a => a = .basic x
  | _ + 1, .enum r, a => ∃ r', a = .enum r' ∧ r'.id = r.id
  | _ + 1, .data r, a => ∃ r', a = .data r' ∧ r'.id = r.id
  | d + 1, .app h es, a =>
    ∃ h' as, a = .app h' as ∧ Unfolds L d h h' ∧ List.Forall₂ (Unfolds L d) es as
  | d + 1, .generic g, a => ∃ b, L g = some b ∧ b.isGenericNamed g = false ∧ Unfolds L d b a
  | _ + 1, _, _ => False

theorem forall₂_imp_of_mem {α β : Type} {R S : α → β → Prop} {l₁ : List α} {l₂ : List β}
    (h : List.Forall₂ R l₁ l₂) (hi : ∀ a ∈ l₁, ∀ b ∈ l₂, R a b → S a b) : List.Forall₂ S l₁ l₂ := by
  obtain ⟨hlen, hz⟩ := List.forall₂_iff_zip.1 h
  exact List.forall₂_iff_zip.2 ⟨hlen, fun hab =>
    hi _ (List.of_mem_zip hab).1 _ (List.of_mem_zip hab).2 (hz hab)⟩

section Unfolds

variable {L : String → Option Ty}

/-! #### Heads of applications -/

namespace TakesArgs

variable {arity : Nat → Nat} {h : Ty} {n : Nat}

/-- A head holds no generic and no interface. -/
theorem stable (hh : h.TakesArgs arity n) : h.stable = true := by
  cases h <;> simp_all [TakesArgs, Ty.stable]

/-- A head and another type come from one declaration exactly when they are the same. -/
theorem sameDecl_eq_same (hh : h.TakesArgs arity n) (h' : Ty) : h.sameDecl h' = h.same h' := by
  cases h <;> cases h' <;> simp_all [TakesArgs, sameDecl, Ty.same]

/-- A head unfolds to every type that is the same as it. -/
theorem unfolds_of_same (hh : h.TakesArgs arity n) {h' : Ty} (hs : h.same h' = true) :
    Unfolds L 1 h h' := by
  cases h with
  | enum r =>
    cases h' <;> simp [Ty.same] at hs
    exact ⟨_, rfl, hs.symm⟩
  | data r =>
    cases h' <;> simp [Ty.same] at hs
    exact ⟨_, rfl, hs.symm⟩
  | _ => simp [TakesArgs] at hh

/-- Every type that is the same as a head unfolds to it. -/
theorem unfolds_of_same_left (hh : h.TakesArgs arity n) {f : Ty} (hs : f.same h = true) :
    Unfolds L 1 f h := by
  cases h with
  | enum r =>
    cases f <;> simp [Ty.same] at hs
    exact ⟨r, rfl, hs.symm⟩
  | data r =>
    cases f <;> simp [Ty.same] at hs
    exact ⟨r, rfl, hs.symm⟩
  | _ => simp [TakesArgs] at hh

/-- What a head unfolds to is the same as it. -/
theorem same_of_unfolds (hh : h.TakesArgs arity n) {d : Nat} {h' : Ty} (hu : Unfolds L d h h') :
    h.same h' = true := by
  cases d with
  | zero => exact hu.elim
  | succ d =>
    cases h with
    | enum r =>
      obtain ⟨r', rfl, hid⟩ := hu
      simp [Ty.same, hid]
    | data r =>
      obtain ⟨r', rfl, hid⟩ := hu
      simp [Ty.same, hid]
    | _ => simp [TakesArgs] at hh

end TakesArgs

/-! #### Unfolding -/

theorem Unfolds.mono {d d' : Nat} {t a : Ty} (h : Unfolds L d t a) (hd : d ≤ d') :
    Unfolds L d' t a := by
  induction d generalizing d' t a with
  | zero => exact h.elim
  | succ d ih =>
    obtain ⟨d', rfl⟩ : ∃ k, d' = k + 1 := ⟨d' - 1, by omega⟩
    cases t with
    | basic x => exact h
    | enum r => exact h
    | data r => exact h
    | app f es =>
      obtain ⟨f', as, rfl, hf, hes⟩ := h
      exact ⟨f', as, rfl, ih hf (by omega), hes.imp fun _ _ he => ih he (by omega)⟩
    | generic g =>
      obtain ⟨b, hb, hn, hu⟩ := h
      exact ⟨b, hb, hn, ih hu (by omega)⟩
    | iface _ | fn _ _ _ _ _ | ctor _ _ _ _ _ => exact h.elim

/-- Members that each unfold at some depth all unfold at one depth. -/
theorem unfolds_forall₂ {es as : List Ty} (h : List.Forall₂ (fun e a => ∃ d, Unfolds L d e a) es as) :
    ∃ d, List.Forall₂ (Unfolds L d) es as := by
  induction h with
  | nil => exact ⟨0, .nil⟩
  | cons he _ ih =>
    obtain ⟨d₁, h₁⟩ := he
    obtain ⟨d₂, h₂⟩ := ih
    exact ⟨max d₁ d₂, .cons (h₁.mono (by omega)) (h₂.imp fun _ _ h => h.mono (by omega))⟩

/-- **Unfolding is a function**, up to `same`: two unfoldings of one type are the same type. -/
theorem Unfolds.same {d d' : Nat} {t a a' : Ty} (h : Unfolds L d t a) (h' : Unfolds L d' t a') :
    a.same a' = true := by
  induction d generalizing d' t a a' with
  | zero => exact h.elim
  | succ d ih =>
    obtain ⟨d', rfl⟩ : ∃ k, d' = k + 1 := by
      cases d' with
      | zero => exact h'.elim
      | succ k => exact ⟨k, rfl⟩
    cases t with
    | basic x =>
      obtain rfl : a = .basic x := h
      obtain rfl : a' = .basic x := h'
      simp [Ty.same]
    | enum r =>
      obtain ⟨r₁, rfl, h₁⟩ := h
      obtain ⟨r₂, rfl, h₂⟩ := h'
      simp [Ty.same, h₁, h₂]
    | data r =>
      obtain ⟨r₁, rfl, h₁⟩ := h
      obtain ⟨r₂, rfl, h₂⟩ := h'
      simp [Ty.same, h₁, h₂]
    | app f es =>
      obtain ⟨f₁, as₁, rfl, hf₁, hes₁⟩ := h
      obtain ⟨f₂, as₂, rfl, hf₂, hes₂⟩ := h'
      -- the arguments pair up through the expected arguments they unfold from
      have hargs : ∀ {es as₁ as₂ : List Ty}, List.Forall₂ (Unfolds L d) es as₁ →
          List.Forall₂ (Unfolds L d') es as₂ → sameList as₁ as₂ = true := by
        intro es as₁ as₂ h₁ h₂
        induction h₁ generalizing as₂ with
        | nil => cases h₂; rfl
        | cons he _ ih' =>
          cases h₂ with
          | cons he' hrest => simp [sameList, ih he he', ih' hrest]
      simp [Ty.same, ih hf₁ hf₂, hargs hes₁ hes₂]
    | generic g =>
      obtain ⟨b, hb, -, hu⟩ := h
      obtain ⟨b', hb', -, hu'⟩ := h'
      obtain rfl : b = b' := Option.some.inj (hb.symm.trans hb')
      exact ih hu hu'
    | iface _ | fn _ _ _ _ _ | ctor _ _ _ _ _ => exact h.elim

/-- An unfolding may be taken for any type `same` takes it for. -/
theorem Unfolds.of_same {d : Nat} {t a a' : Ty} (h : Unfolds L d t a) (ha : a.same a' = true) :
    Unfolds L d t a' := by
  induction d generalizing t a a' with
  | zero => exact h.elim
  | succ d ih =>
    cases t with
    | basic x =>
      obtain rfl : a = .basic x := h
      cases a' <;> simp_all [Ty.same, Unfolds]
    | enum r =>
      obtain ⟨r₁, rfl, h₁⟩ := h
      cases a' <;> simp_all [Ty.same, Unfolds]
    | data r =>
      obtain ⟨r₁, rfl, h₁⟩ := h
      cases a' <;> simp_all [Ty.same, Unfolds]
    | app f es =>
      obtain ⟨f₁, as₁, rfl, hf, hes⟩ := h
      cases a' with
      | app f₂ as₂ =>
        simp only [Ty.same, Bool.and_eq_true, sameList_iff_forall₂] at ha
        obtain ⟨hf₂, hargs⟩ := ha
        have hes' : List.Forall₂ (Unfolds L d) es as₂ := by
          clear hf hf₂
          induction hes generalizing as₂ with
          | nil => cases hargs; exact .nil
          | cons he _ ih' =>
            cases hargs with
            | cons hs hrest => exact .cons (ih he hs) (ih' _ hrest)
        exact ⟨f₂, as₂, rfl, ih hf hf₂, hes'⟩
      | _ => simp [Ty.same] at ha
    | generic g =>
      obtain ⟨b, hb, hn, hu⟩ := h
      exact ⟨b, hb, hn, ih hu ha⟩
    | iface _ | fn _ _ _ _ _ | ctor _ _ _ _ _ => exact h.elim

/-- A type with no generic unfolds to itself: its unfolding is the same as it. -/
theorem Unfolds.same_of_stable {d : Nat} {b a : Ty} (h : Unfolds L d b a) (hb : b.stable = true) :
    b.same a = true := by
  induction d generalizing b a with
  | zero => exact h.elim
  | succ d ih =>
    cases b with
    | basic x =>
      obtain rfl : a = .basic x := h
      simp [Ty.same]
    | enum r =>
      obtain ⟨r₁, rfl, h₁⟩ := h
      simp [Ty.same, h₁]
    | data r =>
      obtain ⟨r₁, rfl, h₁⟩ := h
      simp [Ty.same, h₁]
    | app f es =>
      obtain ⟨f₁, as₁, rfl, hf, hes⟩ := h
      simp only [stable, Bool.and_eq_true, stableList_iff] at hb
      have hargs : List.Forall₂ (fun a b => a.same b = true) es as₁ := by
        clear hf
        induction hes with
        | nil => exact .nil
        | cons he _ ih' =>
          exact .cons (ih he (hb.2 _ List.mem_cons_self))
            (ih' ⟨hb.1, fun t ht => hb.2 t (List.mem_cons_of_mem _ ht)⟩)
      simp [Ty.same, ih hf hb.1, sameList_iff_forall₂.2 hargs]
    | generic g => simp [stable] at hb
    | iface _ | fn _ _ _ _ _ | ctor _ _ _ _ _ => exact h.elim

/-- A type with no generic that `same` takes for a well-formed type unfolds to it. -/
theorem unfolds_of_same_stable {arity : Nat → Nat} {a : Ty} (ha : a.WellFormed arity) :
    ∀ {b : Ty}, b.stable = true → b.same a = true → ∃ d, Unfolds L d b a := by
  induction ha with
  | basic x =>
    intro b _ hs
    cases b <;> simp [Ty.same] at hs
    exact ⟨1, by simp [Unfolds, hs]⟩
  | generic x =>
    intro b hb hs
    cases b <;> simp_all [Ty.same, stable]
  | enum _ =>
    intro b _ hs
    cases b <;> simp [Ty.same] at hs
    exact ⟨1, _, rfl, hs.symm⟩
  | @app h args hh _ ih =>
    intro b hb hs
    cases b with
    | app f bs =>
      simp only [Ty.same, Bool.and_eq_true, sameList_iff_forall₂] at hs
      simp only [stable, Bool.and_eq_true, stableList_iff] at hb
      obtain ⟨hf, hargs⟩ := hs
      have hf' : Unfolds L 1 f h := hh.unfolds_of_same_left hf
      obtain ⟨d, hd⟩ := unfolds_forall₂ (forall₂_imp_of_mem hargs
        fun b hb' a ha hs => ih a ha (hb.2 b hb') hs)
      exact ⟨max 1 d + 1, _, _, rfl, hf'.mono (by omega), hd.imp fun _ _ h => h.mono (by omega)⟩
    | _ => simp [Ty.same] at hs

/-- A well-formed type with no generic unfolds to itself. -/
theorem unfolds_self {arity : Nat → Nat} {a : Ty} (ha : a.WellFormed arity)
    (hs : a.stable = true) : ∃ d, Unfolds L d a a :=
  unfolds_of_same_stable ha hs (same_refl a)

/-- A generic that unfolds has a walk that ends in a type. -/
theorem Unfolds.ends {d : Nat} {g : String} {a : Ty} (h : Unfolds L d (.generic g) a) :
    Chain.Ends L g := by
  induction d generalizing g with
  | zero => exact h.elim
  | succ d ih =>
    obtain ⟨b, hb, -, hu⟩ := h
    cases b with
    | generic m => exact (ih hu).of_reaches (.single hb)
    | _ => exact Chain.ends_of_bound hb rfl

/-- Unfolding reads only the names whose walks end. -/
theorem Unfolds.transfer {L' : String → Option Ty} {d : Nat} {t a : Ty} (h : Unfolds L d t a)
    (hL : Chain.Keeps L L') : Unfolds L' d t a := by
  induction d generalizing t a with
  | zero => exact h.elim
  | succ d ih =>
    cases t with
    | basic x => exact h
    | enum r => exact h
    | data r => exact h
    | app f es =>
      obtain ⟨f', as, rfl, hf, hes⟩ := h
      exact ⟨f', as, rfl, ih hf, hes.imp fun _ _ he => ih he⟩
    | generic g =>
      have hg := hL g h.ends
      obtain ⟨b, hb, hn, hu⟩ := h
      exact ⟨b, hg.trans hb, hn, ih hu⟩
    | iface _ | fn _ _ _ _ _ | ctor _ _ _ _ _ => exact h.elim

/-- A generic unfolds as the type at the end of its walk. -/
theorem unfolds_generic_of_reaches {x z : String} {b a : Ty} {d : Nat} (h : Chain.Reaches L x z)
    (hz : L z = some b) (hb : b.isGeneric = false) (hu : Unfolds L d b a) :
    ∃ d', Unfolds L d' (.generic x) a := by
  induction h using Relation.ReflTransGen.head_induction_on with
  | refl => exact ⟨d + 1, b, hz, by cases b <;> simp_all [isGenericNamed, isGeneric], hu⟩
  | @head x c hxc _ ih =>
    obtain ⟨d', hc⟩ := ih
    by_cases hcx : c = x
    · exact ⟨d', hcx ▸ hc⟩
    · exact ⟨d' + 1, .generic c, hxc, by simpa [isGenericNamed] using hcx, hc⟩

/-- Unfolding a generic unfolds the type at the end of its walk, less deep. -/
theorem Unfolds.of_reaches {x z : String} {b a : Ty} {d : Nat} (hu : Unfolds L d (.generic x) a)
    (h : Chain.Reaches L x z) (hz : L z = some b) : ∃ d' < d, Unfolds L d' b a := by
  induction h using Relation.ReflTransGen.head_induction_on generalizing d with
  | refl =>
    cases d with
    | zero => exact hu.elim
    | succ d =>
      obtain ⟨b', hb', -, hu'⟩ := hu
      obtain rfl : b' = b := Option.some.inj (hb'.symm.trans hz)
      exact ⟨d, by omega, hu'⟩
  | @head x c hxc _ ih =>
    cases d with
    | zero => exact hu.elim
    | succ d =>
      obtain ⟨b', hb', -, hu'⟩ := hu
      obtain rfl : b' = .generic c := Option.some.inj (hb'.symm.trans hxc)
      obtain ⟨d', hd', hb⟩ := ih hu'
      exact ⟨d', by omega, hb⟩

end Unfolds

end Ty

open Ty

namespace Scopes

/-- **Simplifying gives the unfolding**: a type that unfolds simplifies to its unfolding, while
none of the names being followed unfolds as deep as it. At a generic the proof goes down to
the least depth at which the generic unfolds, so that it may join the names being followed. -/
theorem simplifyWith_of_unfolds (s : Scopes) (i : Nat) :
    ∀ (d : Nat) (R : List String) (t a : Ty), Unfolds (s.get i) d t a →
      (∀ n ∈ R, ∀ x, ¬ Unfolds (s.get i) d (.generic n) x) → (s.simplifyWith i R t).same a = true := by
  intro d
  induction d using Nat.strong_induction_on with
  | _ d ih =>
  intro R t a h hR
  cases d with
  | zero => exact h.elim
  | succ k =>
  cases t with
  | basic x =>
    obtain rfl : a = .basic x := h
    simp [simplifyWith, Ty.same]
  | enum r =>
    obtain ⟨r', rfl, hr⟩ := h
    simp [simplifyWith, Ty.same, hr]
  | data r =>
    obtain ⟨r', rfl, hr⟩ := h
    simp [simplifyWith, Ty.same, hr]
  | app f es =>
    obtain ⟨f', as, rfl, hf, hes⟩ := h
    have hR' : ∀ n ∈ R, ∀ x, ¬ Unfolds (s.get i) k (.generic n) x :=
      fun n hn x hx => hR n hn x (hx.mono (by omega))
    rw [simplifyWith_app]
    simp only [Ty.same, ih k (by omega) R f f' hf hR', Bool.true_and, sameList_iff_forall₂,
      List.forall₂_map_left_iff]
    exact hes.imp fun e x he => ih k (by omega) R e x he hR'
  | generic g =>
    obtain ⟨b, hb, hn, hu⟩ := h
    have hgR : g ∉ R := fun hg => hR g hg a ⟨b, hb, hn, hu⟩
    classical
    -- the least depth at which `g` unfolds
    have hex : ∃ m, ∃ x, Unfolds (s.get i) m (.generic g) x := ⟨k + 1, a, b, hb, hn, hu⟩
    have hmin : Nat.find hex ≤ k + 1 := Nat.find_min' hex ⟨a, b, hb, hn, hu⟩
    obtain ⟨x₀, hx₀⟩ := Nat.find_spec hex
    obtain ⟨k₀, hk₀⟩ : ∃ k₀, Nat.find hex = k₀ + 1 := by
      cases hfind : Nat.find hex with
      | zero => rw [hfind] at hx₀; exact hx₀.elim
      | succ k₀ => exact ⟨k₀, rfl⟩
    rw [hk₀] at hx₀ hmin
    obtain ⟨b₀, hb₀, -, hu₀⟩ := hx₀
    obtain rfl : b = b₀ := Option.some.inj (hb.symm.trans hb₀)
    have hu₀' : Unfolds (s.get i) k₀ b a := hu₀.of_same (hu₀.same hu)
    rw [simplifyWith_generic_of_get s i (by simpa using hgR) hb, if_neg (by simp [hn])]
    split
    · exact hu₀'.same_of_stable ‹_›
    · refine ih k₀ (by omega) (g :: R) b a hu₀' fun n hn x hx => ?_
      rcases List.mem_cons.1 hn with rfl | hn
      · exact Nat.find_min hex (by omega : k₀ < Nat.find hex) ⟨x, hx⟩
      · exact hR n hn x (hx.mono (by omega))
  | iface _ | fn _ _ _ _ _ | ctor _ _ _ _ _ => exact h.elim

/-- **A simplification with no generic is an unfolding**: in a frame whose bindings are
well-formed, a well-formed type that simplifies to a well-formed type with no generic unfolds
to it. -/
theorem unfolds_of_simplifyWith (s : Scopes) (i : Nat) {arity : Nat → Nat}
    (hs : ∀ x b, s.get i x = some b → b.WellFormed arity) (R : List String) (t : Ty) :
    t.WellFormed arity → ∀ a, a.WellFormed arity → a.stable = true →
      (s.simplifyWith i R t).same a = true → ∃ d, Unfolds (s.get i) d t a := by
  fun_induction s.simplifyWith i R t with
  | case1 | case2 | case5 =>
    -- the generic is left as it is, and the actual type has none
    intro _ a _ hga hsame
    cases a <;> simp_all [Ty.same, stable]
  | case3 R n hn b hb hng hst =>
    intro _ a ha _ hsame
    obtain ⟨d, hd⟩ := unfolds_of_same_stable ha hst hsame
    exact ⟨d + 1, b, hb, by simpa using hng, hd⟩
  | case4 R n hn b hb hng hst ih =>
    intro _ a ha hga hsame
    obtain ⟨d, hd⟩ := ih (hs n b hb) a ha hga hsame
    exact ⟨d + 1, b, hb, by simpa using hng, hd⟩
  | case6 R f args _ ihargs =>
    intro ht a ha hga hsame
    cases ht with
    | app hh hargs =>
    cases ha with
    | @app f' as _ has =>
      rw [simplifyWith_of_stable s i _ f hh.stable] at hsame
      simp only [List.map_subtype, List.unattach_attach, Ty.same,
        Bool.and_eq_true, sameList_iff_forall₂, List.forall₂_map_left_iff] at hsame
      simp only [stable, Bool.and_eq_true, stableList_iff] at hga
      obtain ⟨d, hd⟩ := unfolds_forall₂ (forall₂_imp_of_mem hsame.2
        fun e he x hx hex => ihargs e he (hargs e he) x (has x hx) (hga.2 x hx) hex)
      have hhead : Unfolds (s.get i) 1 f f' := hh.unfolds_of_same hsame.1
      exact ⟨max 1 d + 1, _, _, rfl, hhead.mono (by omega), hd.imp fun _ _ h => h.mono (by omega)⟩
    | _ => simp [Ty.same] at hsame
  | case7 | case8 | case9 | case10 | case11 => intro ht; cases ht
  | case12 R t hg happ hif =>
    intro ht a ha hga hsame
    cases ht with
    | basic x =>
      cases a <;> simp [Ty.same] at hsame
      exact ⟨1, by simp [Unfolds, hsame]⟩
    | enum _ =>
      cases a <;> simp [Ty.same] at hsame
      exact ⟨1, _, rfl, hsame.symm⟩
    | generic n => exact (hg n rfl).elim
    | app _ _ => exact (happ _ _ rfl).elim

/-- **Simplifying computes the unfolding**: in a frame whose bindings are well-formed, a
well-formed type simplifies to a well-formed type with no generic exactly when it unfolds to
it. -/
theorem simplify_same_iff (s : Scopes) (i : Nat) {arity : Nat → Nat}
    (hs : ∀ x b, s.get i x = some b → b.WellFormed arity) {t a : Ty} (ht : t.WellFormed arity)
    (ha : a.WellFormed arity) (hga : a.stable = true) :
    (s.simplify i t).same a = true ↔ ∃ d, Unfolds (s.get i) d t a := by
  rw [simplify_eq_simplifyWith]
  refine ⟨unfolds_of_simplifyWith s i hs [] t ht a ha hga, fun ⟨d, hd⟩ => ?_⟩
  exact simplifyWith_of_unfolds s i d [] t a hd (fun _ h => absurd h List.not_mem_nil)

end Scopes

end Verve
