import Verve.Proofs.Declarations
import Verve.Proofs.Forward
import Verve.Proofs.ReadPrinted
import Verve.Proofs.Unify

/-!
# The types that annotations denote

An annotation is a name, a name applied to annotations in angle brackets, or a function type
`fn(A, B): R`. A name denotes the generic of that name when one is in scope, else the type the
declaration table declares under it. `Parse.Denotes N G D` is this class of types, for the
generic names `G` in scope and the table `D`, where every name read satisfies `N`; every type
that the reader of annotations returns is in it (`Parse.typeExpr_denotes`).

`Parse.Preserves I r P` says that every run of the reader `r` from a state with `I` ends in a
state with `I` and returns a value satisfying `P`. Reading an annotation moves along the tokens
and changes nothing else, so the generic names in scope and the table stay those it started
with (`Parse.InScope`).

Conversely, tokens that spell a type of the class are read back as that type
(`Parse.readsBackType`): `Ty.pieces` are the tokens of a type as a programmer writes it, and
a name is read back as the type it was read from as long as the table declares every type
under its own name and no generic name carries a copy mark.
-/

namespace Verve

namespace Parse

/-- What a name denotes in an annotation, with the generic names `G` in scope and the table
`D`: the generic of that name when one is in scope, else the type the table declares under it. -/
def NameDenotes (G : List String) (D : Decls) (x : String) (t : Ty) : Prop :=
  (G.contains x = true ∧ t = .generic x) ∨ (G.contains x = false ∧ D.typeNamed? x = some t)

/-- The types that annotations denote, with the generic names `G` in scope and the table `D`,
where every name read satisfies `N`. -/
inductive Denotes (N : String → Prop) (G : List String) (D : Decls) : Ty → Prop
  /-- A name. -/
  | name {x : String} {t : Ty} : N x → NameDenotes G D x t → Denotes N G D t
  /-- A name applied to annotations. -/
  | app {x : String} {h : Ty} {args : List Ty} : N x → NameDenotes G D x h →
      (∀ a ∈ args, Denotes N G D a) → Denotes N G D (.app h args)
  /-- A function type, which is named `fn` and has no type parameters of its own. -/
  | fn {ps : List Ty} {r : Ty} : (∀ p ∈ ps, Denotes N G D p) → Denotes N G D r →
      Denotes N G D (.fn "fn" ps r [] none)

/-- The states that reading an annotation passes through: the generic names `G` in scope,
the table `D`, and tokens whose identifiers hold names that satisfy `N`. -/
structure InScope (N : String → Prop) (G : List String) (D : Decls) (s : State) : Prop where
  generics : s.generics = G
  decls : s.decls = D
  idents : ∀ i, (tokenAt s.tokens i).kind = .identifier → N (tokenAt s.tokens i).value

/-- From a state with `I`, every run of `r` that returns ends in a state with `I` and returns a
value satisfying `P`. -/
def Preserves {α : Type} (I : State → Prop) (r : Reader α) (P : α → Prop) : Prop :=
  ∀ s a s', I s → r.run s = .ok (a, s') → I s' ∧ P a

namespace Preserves

variable {α β : Type} {I : State → Prop} {P : β → Prop}

theorem pure {b : β} (h : P b) : Preserves I (Pure.pure b) P :=
  fun _ _ _ hs he => by cases he; exact ⟨hs, h⟩

theorem bind {m : Reader α} {f : α → Reader β} {Q : α → Prop} (hm : Preserves I m Q)
    (hf : ∀ a, Q a → Preserves I (f a) P) : Preserves I (m >>= f) P := by
  intro s b s'' hs h
  obtain ⟨a, s', hm', hf'⟩ := run_bind_eq_ok h
  obtain ⟨hs', hq⟩ := hm s a s' hs hm'
  exact hf a hq s' b s'' hs' hf'

theorem throw {e : Located} : Preserves I (MonadExcept.throw e : Reader β) P :=
  fun _ _ _ _ he => by cases he

/-- Nothing after a fault runs. -/
theorem throw_bind {e : Located} {f : α → Reader β} : Preserves I (MonadExcept.throw e >>= f) P :=
  bind (Q := fun _ => False) throw fun _ h => h.elim

end Preserves

section Reading

variable {N : String → Prop} {G : List String} {D : Decls}

/-- Moving to another token keeps the names in scope, the table and the tokens. -/
theorem InScope.moved {s : State} (h : InScope N G D s) (p : Nat) :
    InScope N G D { s with pos := p } :=
  ⟨h.generics, h.decls, h.idents⟩

theorem inScope_current : Preserves (InScope N G D) current (fun t => t.kind = .identifier → N t.value) :=
  fun s _ _ hs he => by cases he; exact ⟨hs, hs.idents s.pos⟩

theorem inScope_get : Preserves (InScope N G D) get (fun s => s.generics = G ∧ s.decls = D) :=
  fun _ _ _ hs he => by cases he; exact ⟨hs, hs.generics, hs.decls⟩

theorem inScope_unexpected {P : β → Prop} : Preserves (InScope N G D) unexpected P :=
  Preserves.bind inScope_current fun _ _ => Preserves.throw

theorem inScope_outOfFuel {P : β → Prop} : Preserves (InScope N G D) outOfFuel P :=
  Preserves.bind inScope_current fun _ _ => Preserves.throw

theorem inScope_advance :
    Preserves (InScope N G D) advance (fun t => t.kind = .identifier → N t.value) := by
  intro s t s' hs he
  rw [run_advance] at he
  cases he
  refine ⟨?_, hs.idents s.pos⟩
  split
  · exact hs.moved _
  · exact hs

theorem inScope_expect (k : TokenKind) :
    Preserves (InScope N G D) (expect k) (fun t => t.kind = k ∧ (t.kind = .identifier → N t.value)) := by
  intro s t s' hs he
  unfold expect at he
  rw [run_bind_ok (run_current s)] at he
  split at he
  · rename_i hk
    obtain ⟨hs', ht⟩ := inScope_advance s t s' hs he
    rw [run_advance] at he
    cases he
    exact ⟨hs', hk, ht⟩
  · cases he

theorem inScope_eat (k : TokenKind) : Preserves (InScope N G D) (eat k) (fun _ => True) := by
  unfold eat
  refine Preserves.bind inScope_current fun _ _ => ?_
  split
  · exact Preserves.bind inScope_advance fun _ _ => Preserves.pure trivial
  · exact Preserves.pure trivial

/-- Items read one after another, each satisfying `P`, all satisfy it. -/
theorem inScope_delimited {item : Reader β} {P : β → Prop} (h : Preserves (InScope N G D) item P)
    (close : TokenKind) : (fuel : Nat) → (acc : List β) → (∀ x ∈ acc, P x) →
      Preserves (InScope N G D) (delimited item close fuel acc) (∀ x ∈ ·, P x)
  | 0, _, _ => inScope_outOfFuel
  | fuel + 1, acc, hacc => by
    unfold delimited
    refine Preserves.bind inScope_current fun _ _ => ?_
    split
    · exact Preserves.bind inScope_advance fun _ _ =>
        Preserves.pure fun y hy => hacc y (List.mem_reverse.1 hy)
    · refine Preserves.bind h fun x hx => Preserves.bind (inScope_eat _) fun _ _ => ?_
      have hall : ∀ y ∈ x :: acc, P y := by simpa [hx] using hacc
      split
      · exact inScope_delimited h close fuel (x :: acc) hall
      · exact Preserves.bind (inScope_expect _) fun _ _ =>
          Preserves.pure fun y hy => hall y (List.mem_reverse.1 hy)

/-! ## Every annotation read denotes a type of the class -/

mutual

theorem typeExpr_denotes : (fuel : Nat) → Preserves (InScope N G D) (typeExpr fuel) (Denotes N G D)
  | 0 => inScope_outOfFuel
  | fuel + 1 => by
    unfold typeExpr
    refine Preserves.bind inScope_current fun _ _ => ?_
    split
    · exact namedType_denotes fuel
    · exact fnType_denotes fuel
    · exact inScope_unexpected

theorem namedType_denotes : (fuel : Nat) → Preserves (InScope N G D) (namedType fuel) (Denotes N G D)
  | 0 => inScope_outOfFuel
  | fuel + 1 => by
    unfold namedType
    refine Preserves.bind (inScope_expect _) fun t ht => Preserves.bind inScope_get fun s hs => ?_
    have hx : N t.value := ht.2 ht.1
    extract_lets jp
    -- the name read denotes the head; arguments in angle brackets make an application of it
    have hk : ∀ base, NameDenotes G D t.value base → Preserves (InScope N G D) (jp base) (Denotes N G D) :=
      fun base hb => by
        refine Preserves.bind (inScope_eat _) fun _ _ => ?_
        split
        · exact Preserves.bind (inScope_delimited (typeExpr_denotes fuel) _ fuel [] nofun)
            fun _ hargs => Preserves.pure (.app hx hb hargs)
        · exact Preserves.pure (.name hx hb)
    split
    · rename_i hg
      exact Preserves.bind (Preserves.pure (Or.inl ⟨hs.1 ▸ hg, rfl⟩)) hk
    · rename_i hg
      split
      · rename_i ty hty
        exact Preserves.bind (Preserves.pure (Or.inr ⟨by simpa [hs.1] using hg, hs.2 ▸ hty⟩)) hk
      · exact Preserves.throw_bind

theorem fnType_denotes : (fuel : Nat) → Preserves (InScope N G D) (fnType fuel) (Denotes N G D)
  | 0 => inScope_outOfFuel
  | fuel + 1 => by
    unfold fnType
    refine Preserves.bind (inScope_expect _) fun _ _ => Preserves.bind (inScope_expect _) fun _ _ => ?_
    refine Preserves.bind (inScope_delimited (typeExpr_denotes fuel) _ fuel [] nofun) fun _ hps => ?_
    exact Preserves.bind (inScope_expect _) fun _ _ =>
      Preserves.bind (typeExpr_denotes fuel) fun _ hr => Preserves.pure (.fn hps hr)

end

end Reading

end Parse

/-! ## Reading a type back -/

namespace Ty

mutual

/-- The tokens of a type as a programmer writes it: the name of a declared type, the declared
name of a generic, `H<A, B>` for an application and `fn(A, B): R` for a function. -/
def pieces : Ty → List (TokenKind × String)
  | .basic n => [(.identifier, n)]
  | .generic n => [(.identifier, declaredName n)]
  | .app h as => pieces h ++ (.less, "<") :: (piecesList as ++ [(.greater, ">")])
  | .fn _ ps r _ _ =>
    (.kwFn, "fn") :: (.openParen, "(") ::
      (piecesList ps ++ [(.closeParen, ")")] ++ (.colon, ":") :: pieces r)
  | .iface r => [(.identifier, r.name)]
  | .enum r => [(.identifier, r.name)]
  | .data r => [(.identifier, r.name)]
  | .ctor _ n _ _ _ => [(.identifier, n)]

/-- The tokens of types separated by commas. -/
def piecesList : List Ty → List (TokenKind × String)
  | [] => []
  | [t] => pieces t
  | t :: u :: ts => pieces t ++ (.comma, ",") :: piecesList (u :: ts)

end

/-- A written type starts with a name or with the keyword of a function type. -/
theorem pieces_head : ∀ t : Ty, ∃ p ps, t.pieces = p :: ps ∧ (p.1 = .identifier ∨ p.1 = .kwFn)
  | .basic _ | .generic _ | .iface _ | .enum _ | .data _ | .ctor _ _ _ _ _ => ⟨_, [], rfl, .inl rfl⟩
  | .fn _ _ _ _ _ => ⟨_, _, rfl, .inr rfl⟩
  | .app h as => by
    obtain ⟨p, ps, hps, hp⟩ := pieces_head h
    exact ⟨p, ps ++ (.less, "<") :: (piecesList as ++ [(.greater, ">")]), by simp [pieces, hps], hp⟩

end Ty

namespace Parse

theorem Reads.kind_ne_of_type {toks : Array Token} {i : Nat} {t : Ty} {k : TokenKind}
    (hk : k ≠ .identifier ∧ k ≠ .kwFn) (hr : Reads toks i t.pieces) : (tokenAt toks i).kind ≠ k := by
  obtain ⟨p, ps, hps, hp⟩ := t.pieces_head
  rw [hps] at hr
  rw [(Reads.head hr).1]
  rintro rfl
  rcases hp with hp | hp
  · exact hk.1 hp
  · exact hk.2 hp

theorem NameDenotes.pieces {G : List String} {D : Decls} {x : String} {t : Ty}
    (hx : Ty.declaredName x = x) (hD : D.TypesNamed) (h : NameDenotes G D x t) :
    t.pieces = [(.identifier, x)] := by
  rcases h with ⟨-, rfl⟩ | ⟨-, ht⟩
  · rw [Ty.pieces, hx]
  · have hn := hD.typeNamed ht
    cases t <;> simp_all [Ty.isNamed, Ty.pieces]

section ReadBack

variable {s : State} {f : Nat}

theorem run_typeExpr_identifier (hk : (tokenAt s.tokens s.pos).kind = .identifier) :
    (typeExpr (f + 1)).run s = (namedType f).run s := by
  unfold typeExpr
  rw [run_bind_ok (run_current s), hk]

theorem run_typeExpr_kwFn (hk : (tokenAt s.tokens s.pos).kind = .kwFn) :
    (typeExpr (f + 1)).run s = (fnType f).run s := by
  unfold typeExpr
  rw [run_bind_ok (run_current s), hk]

theorem run_namedType_head {x : String} {b : Ty}
    (hr : Reads s.tokens s.pos [(.identifier, x)]) (hb : NameDenotes s.generics s.decls x b) :
    (namedType (f + 1)).run s = (do
      if ← eat .less then
        let args ← delimited (typeExpr f) .greater f []
        pure (Ty.app b args)
      else pure b : Reader Ty).run { s with pos := s.pos + 1 } := by
  obtain ⟨hk, hv, hlt⟩ := Reads.head hr
  unfold namedType
  have hget : (get : Reader State).run { s with pos := s.pos + 1 } =
      .ok ({ s with pos := s.pos + 1 }, { s with pos := s.pos + 1 }) := rfl
  rw [run_bind_ok (run_expect_of_kind hk hlt), run_bind_ok hget]
  dsimp only
  rcases hb with ⟨hg, rfl⟩ | ⟨hg, hty⟩
  · rw [hv, if_pos hg]
    rfl
  · rw [hv, if_neg (Bool.eq_false_iff.1 hg), hty]
    rfl

/-- Reading an annotation from tokens that spell `t`, with the generic names `G` in scope and
the table `D`, returns `t` and stops after them, given more fuel than there are tokens and a
token after them that opens no arguments. -/
def ReadsBackType (G : List String) (D : Decls) (t : Ty) : Prop :=
  ∀ (s : State) (fuel : Nat), s.generics = G → s.decls = D → Reads s.tokens s.pos t.pieces →
    (tokenAt s.tokens (s.pos + t.pieces.length)).kind ≠ .less → t.pieces.length < fuel →
    (typeExpr fuel).run s = .ok (t, { s with pos := s.pos + t.pieces.length })

variable {G : List String} {D : Decls}

/-- Types separated by commas and closed by `close` are read back by `delimited`, each by
`ReadsBackType`, after the types read before them. -/
theorem delimited_types {close : TokenKind} {text : String}
    (hclose : close ≠ .identifier ∧ close ≠ .kwFn) (hcomma : close ≠ .comma)
    (hless : close ≠ .less) {g : Nat} :
    ∀ (args acc : List Ty) (s : State) (f : Nat), s.generics = G → s.decls = D →
      (∀ a ∈ args, ReadsBackType G D a) →
      Reads s.tokens s.pos (Ty.piecesList args ++ [(close, text)]) →
      (Ty.piecesList args).length < f → (Ty.piecesList args).length < g →
      (delimited (typeExpr g) close f acc).run s =
        .ok (acc.reverse ++ args, { s with pos := s.pos + (Ty.piecesList args).length + 1 })
  | [], acc, s, f, _, _, _, hr, hf, _ => by
    rw [Ty.piecesList, List.nil_append] at hr
    obtain ⟨hk, -, hlt⟩ := Reads.head hr
    obtain ⟨f, rfl⟩ : ∃ f', f = f' + 1 := ⟨f - 1, by omega⟩
    unfold delimited
    rw [run_bind_ok (run_current s), if_pos hk, run_bind_ok (run_advance_of_lt hlt), run_pure]
    simp [Ty.piecesList]
  | [a], acc, s, f, hG, hD, hargs, hr, hf, hg => by
    rw [Ty.piecesList] at hr hf hg ⊢
    obtain ⟨hra, hrc⟩ := reads_append.1 hr
    obtain ⟨hk, -, hlt⟩ := Reads.head hrc
    obtain ⟨f, rfl⟩ : ∃ f', f = f' + 1 := ⟨f - 1, by omega⟩
    have he := hargs a List.mem_cons_self s g hG hD hra (by rw [hk]; exact hless) hg
    have heat := run_eat_of_ne (s := { s with pos := s.pos + a.pieces.length }) (k := .comma)
      (by rw [hk]; exact hcomma)
    unfold delimited
    rw [run_bind_ok (run_current s), if_neg (hra.kind_ne_of_type hclose), run_bind_ok he,
      run_bind_ok heat, if_neg Bool.false_ne_true,
      run_bind_ok (run_expect_of_kind (s := { s with pos := s.pos + a.pieces.length }) hk hlt), run_pure]
    simp
  | a :: a' :: as, acc, s, f, hG, hD, hargs, hr, hf, hg => by
    rw [Ty.piecesList, List.append_assoc] at hr
    rw [Ty.piecesList, List.length_append, List.length_cons] at hf hg
    obtain ⟨hra, hrc⟩ := reads_append.1 hr
    obtain ⟨hk, -, hlt⟩ := Reads.head hrc
    obtain ⟨f, rfl⟩ : ∃ f', f = f' + 1 := ⟨f - 1, by omega⟩
    have he := hargs a List.mem_cons_self s g hG hD hra (by rw [hk]; decide) (by omega)
    -- the types after the comma, with `a` gathered
    have hes := delimited_types (g := g) hclose hcomma hless (a' :: as) (a :: acc)
      { s with pos := s.pos + a.pieces.length + 1 } f hG hD
      (fun b hb => hargs b (List.mem_cons_of_mem _ hb)) hrc.2.2 (by omega) (by omega)
    unfold delimited
    rw [run_bind_ok (run_current s), if_neg (hra.kind_ne_of_type hclose), run_bind_ok he,
      run_bind_ok (run_eat_of_kind (s := { s with pos := s.pos + a.pieces.length }) hk hlt), if_pos rfl,
      hes]
    simp only [List.reverse_cons, List.append_assoc, List.cons_append, List.nil_append,
      Ty.piecesList, List.length_append, List.length_cons]
    congr 3
    omega

/-- **Every annotation type is read back from its tokens**, when the names it is read from
are their own declared names and every type in the table is declared under its own name. -/
theorem readsBackType {N : String → Prop} (hN : ∀ x, N x → Ty.declaredName x = x)
    (hD : D.TypesNamed) {t : Ty} (ht : Denotes N G D t) : ReadsBackType G D t := by
  induction ht with
  | name hx hb =>
    intro s fuel hG hDs hr hfollow hfuel
    rw [hb.pieces (hN _ hx) hD] at hr hfollow hfuel ⊢
    obtain ⟨hk, -, -⟩ := Reads.head hr
    obtain ⟨f, rfl⟩ : ∃ f, fuel = f + 2 := ⟨fuel - 2, by simp at hfuel; omega⟩
    rw [run_typeExpr_identifier hk, run_namedType_head hr (hG ▸ hDs ▸ hb),
      run_bind_ok (run_eat_of_ne (s := { s with pos := s.pos + 1 }) hfollow)]
    rfl
  | @app x h args hx hb _ ih =>
    intro s fuel hG hDs hr _ hfuel
    have hh := hb.pieces (hN _ hx) hD
    rw [Ty.pieces, hh] at hr hfuel ⊢
    simp only [List.length_append, List.length_cons, List.length_nil] at hfuel ⊢
    obtain ⟨hk, -, hlt⟩ := Reads.head hr
    obtain ⟨hless, -, hlt'⟩ := Reads.head hr.2.2
    obtain ⟨f, rfl⟩ : ∃ f, fuel = f + 2 := ⟨fuel - 2, by omega⟩
    have hargs' := delimited_types (g := f) (by decide) (by decide) (by decide) args []
      { s with pos := s.pos + 1 + 1 } f hG hDs ih hr.2.2.2.2 (by omega) (by omega)
    rw [run_typeExpr_identifier hk, run_namedType_head (reads_append.1 hr).1 (hG ▸ hDs ▸ hb),
      run_bind_ok (run_eat_of_kind (s := { s with pos := s.pos + 1 }) hless hlt'), if_pos rfl,
      run_bind_ok hargs']
    simp only [List.reverse_nil, List.nil_append, run_pure]
    congr 3
    omega
  | @fn ps r _ _ ihps ihr =>
    intro s fuel hG hDs hread hfollow hfuel
    rw [Ty.pieces] at hread hfollow hfuel ⊢
    simp only [List.length_append, List.length_cons, List.length_nil] at hfollow hfuel ⊢
    obtain ⟨hk, -, hlt⟩ := Reads.head hread
    obtain ⟨hko, -, hlto⟩ := Reads.head hread.2.2
    obtain ⟨hrl, hrc⟩ := reads_append.1 hread.2.2.2.2
    rw [List.length_append, List.length_singleton, ← Nat.add_assoc] at hrc
    obtain ⟨hkc, -, hltc⟩ := Reads.head hrc
    obtain ⟨f, rfl⟩ : ∃ f, fuel = f + 2 := ⟨fuel - 2, by omega⟩
    have hparams := delimited_types (g := f) (by decide) (by decide) (by decide) ps []
      { s with pos := s.pos + 1 + 1 } f hG hDs ihps hrl (by omega) (by omega)
    have hret := ihr { s with pos := s.pos + 1 + 1 + (Ty.piecesList ps).length + 1 + 1 } f hG hDs
      hrc.2.2 (by convert hfollow using 3; dsimp only; omega) (by omega)
    rw [run_typeExpr_kwFn hk]
    unfold fnType
    rw [run_bind_ok (run_expect_of_kind hk hlt),
      run_bind_ok (run_expect_of_kind (s := { s with pos := s.pos + 1 }) hko hlto), run_bind_ok hparams,
      run_bind_ok (run_expect_of_kind
        (s := { s with pos := s.pos + 1 + 1 + (Ty.piecesList ps).length + 1 }) hkc hltc),
      run_bind_ok hret]
    simp only [List.reverse_nil, List.nil_append, run_pure]
    congr 3
    simp
    omega

/-- Tokens whose kinds and values are those of a type and then the end mark are read back as
that type, from their start to the end mark. -/
theorem run_typeExpr_of_map {N : String → Prop} (hN : ∀ x, N x → Ty.declaredName x = x)
    (hD : D.TypesNamed) {t : Ty} (ht : Denotes N G D t) {toks : Array Token}
    (hmap : toks.toList.map (fun t => (t.kind, t.value)) = t.pieces ++ [(TokenKind.eof, "EOF")])
    {fuel : Nat} (hfuel : t.pieces.length < fuel) :
    (typeExpr fuel).run ⟨toks, 0, D, G⟩ = .ok (t, ⟨toks, t.pieces.length, D, G⟩) := by
  have hr : Reads toks 0 t.pieces := reads_of_map hmap t.pieces rfl (by simp)
  have hend := tokenAt_of_map hmap (i := t.pieces.length) (by simp)
  rw [List.getElem_append_right (by simp)] at hend
  simp only [Nat.sub_self, List.getElem_cons_zero, Prod.mk.injEq] at hend
  have hrun := readsBackType hN hD ht ⟨toks, 0, D, G⟩ fuel rfl rfl hr
    (by rw [Nat.zero_add, hend.1]; decide) hfuel
  rwa [Nat.zero_add] at hrun

end ReadBack

end Parse

end Verve
