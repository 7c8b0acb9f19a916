import Verve.Proofs.Layout
import Verve.Proofs.Forward

/-!
# Reading a printed expression gives it back

Main statement: `Node.program_print`. For every tree of the printed class, reading the tokens
of its printed text as a program gives a root block that holds the tree and nothing else, up
to spans and types. Since the printer puts parentheses only where binding powers ask for them,
this says how the reader groups: binary operators by power, `&& ||` below the comparisons,
below `+ -`, below `* / %`; operators of one power to the left; a prefix operator more tightly
than every binary operator and less tightly than a call.

The reader does not follow the tree: it reads the leftmost operand first and then extends
it, operator after operator and call after call. `Parse.Spine X w E` cuts a tree so: `X` is
the node read first, in parentheses when `w`, and `E` is reached from it by steps that each
make the node read so far the left operand of a binary operation or the callee of a call
(`Node.Extends`). The proof is by strong induction on the size of the tree
(`Parse.readsBack`): the start of the reading gives `X` (`Parse.start_leaf`,
`Parse.start_grouped`), each turn of the extension loop one step (`Parse.extend_step`), and
the loop stops after the last step, at a token that binds no more strongly than the power
being read. Right operands, operands of prefix operators, arguments and list items are
smaller trees, read by the induction hypothesis (`Parse.expr_operand`,
`Parse.delimited_reads`). The scan of the printed text gives the tokens of the tree and the
end mark (`Node.Printable.scan_print`), which the item loop reads as one expression
(`Parse.program_reads`).
-/

namespace Verve

open Token

namespace Node

/-- The rank at which the extension loop sees a node bound: its operator's for a binary
operation, and for every other node that of a call, the highest. -/
def loopRank : Node → Nat
  | .mk (.binary op _ _) _ _ => (Parse.Power.ofKind op).rank
  | _ => Parse.Power.call.rank

/-- `n` is `l` extended by one step of the extension loop: a binary operation whose left
operand is `l`, or a call of `l`; `b` tells whether `l` is printed in parentheses in `n`. -/
def Extends (n l : Node) (b : Bool) : Prop :=
  (∃ op r sp ty, n = .mk (.binary op l r) sp ty ∧
    l.parenthesisedUnder (Parse.Power.ofKind op) false = b) ∨
  ∃ args d sp ty, n = .mk (.call l args d) sp ty ∧ l.parenthesisedCallee = b

/-- A node that the start of an expression reads whole: neither a binary operation nor a
call. -/
def IsLeaf : Node → Prop
  | .mk (.binary _ _ _) _ _ | .mk (.call _ _ _) _ _ => False
  | _ => True

end Node

namespace Parse

/-- `Spine X w E`: reading `E` starts by reading `X`, in parentheses when `w`, and goes on
with the steps of the extension loop that lead from `X` to `E`. -/
inductive Spine : Node → Bool → Node → Prop
  | seed {X : Node} : X.IsLeaf → Spine X false X
  | group {X E : Node} : E.Extends X true → Spine X true E
  | step {X l E : Node} {w : Bool} : E.Extends l false → Spine X w l → Spine X w E

/-- The tokens of a list from index `i` on are `ps`, and more follow them. -/
def Reads (toks : Array Token) (i : Nat) : List (TokenKind × String) → Prop
  | [] => True
  | p :: ps => i + 1 < toks.size ∧ ((tokenAt toks i).kind, (tokenAt toks i).value) = p ∧
      Reads toks (i + 1) ps

theorem reads_append {toks : Array Token} {ps qs : List (TokenKind × String)} :
    ∀ {i : Nat}, Reads toks i (ps ++ qs) ↔ Reads toks i ps ∧ Reads toks (i + ps.length) qs := by
  induction ps with
  | nil => simp [Reads]
  | cons p ps ih =>
    intro i
    simp only [List.cons_append, Reads, ih, List.length_cons, and_assoc]
    rw [show i + 1 + ps.length = i + (ps.length + 1) by omega]

theorem Reads.head {toks : Array Token} {i : Nat} {k : TokenKind} {v : String}
    {ps : List (TokenKind × String)} (h : Reads toks i ((k, v) :: ps)) :
    (tokenAt toks i).kind = k ∧ (tokenAt toks i).value = v ∧ i + 1 < toks.size := by
  obtain ⟨hlt, he, -⟩ := h
  simp only [Prod.mk.injEq] at he
  exact ⟨he.1, he.2, hlt⟩

end Parse

namespace Node

open Parse

/-! ## Printed trees -/

/-- The kinds of token an expression of the printed class starts with. -/
def startKinds : List TokenKind :=
  [.number, .identifier, .string, .dash, .not, .openParen, .openBracket]

/-- A printed tree starts with a literal, a name, a prefix operator or an opening bracket. -/
theorem Printable.pieces_head {E : Node} (h : E.Printable) :
    ∃ p ps, E.pieces = p :: ps ∧ p.1 ∈ startKinds := by
  have hparen : ∀ b (ts : List (TokenKind × String)),
      (∃ p ps, ts = p :: ps ∧ p.1 ∈ startKinds) →
      ∃ p ps, parenthesise b ts = p :: ps ∧ p.1 ∈ startKinds := by
    rintro (_ | _) ts ⟨p, ps, rfl, hp⟩
    · exact ⟨p, ps, rfl, hp⟩
    · exact ⟨_, _, rfl, by decide⟩
  induction h with
  | num | ident | str | construct | list => exact ⟨_, _, rfl, by simp [startKinds]⟩
  | unary hop =>
    rcases hop with rfl | rfl
    · exact ⟨_, _, rfl, by decide⟩
    · exact ⟨_, _, rfl, by decide⟩
  | binary _ _ _ ihl =>
    obtain ⟨p, ps, hl, hp⟩ := hparen _ _ ihl
    exact ⟨p, _, by rw [pieces, formPieces, hl, List.cons_append], hp⟩
  | call _ _ ihf =>
    obtain ⟨p, ps, hf, hp⟩ := hparen _ _ ihf
    exact ⟨p, _, by rw [pieces, formPieces, hf, List.cons_append, List.cons_append], hp⟩

/-- The extension loop sees every printed tree bound at a rank above the lowest. -/
theorem Printable.loopRank_pos {E : Node} (h : E.Printable) : 0 < E.loopRank := by
  cases h with
  | binary hop => exact (Power.rank_of_isBinary hop).1
  | _ => simp [loopRank, Power.rank]

theorem Printable.binary_inv {op : TokenKind} {l r : Node} {sp : Span} {ty : Option Ty}
    (h : (Node.mk (.binary op l r) sp ty).Printable) :
    (Power.ofKind op).isBinary = true ∧ l.Printable ∧ r.Printable := by
  cases h with
  | binary hop hl hr => exact ⟨hop, hl, hr⟩

theorem Printable.call_inv {f : Node} {args : List Node} {d : Option Dispatch} {sp : Span}
    {ty : Option Ty} (h : (Node.mk (.call f args d) sp ty).Printable) :
    f.Printable ∧ ∀ a ∈ args, a.Printable := by
  cases h with
  | call hf hargs => exact ⟨hf, hargs⟩

/-- The extension loop sees a node at its operator's rank if it is a binary operation, and at
the highest rank if not. -/
theorem loopRank_cases : ∀ r : Node,
    (∃ op l r' sp ty, r = .mk (.binary op l r') sp ty) ∨ r.loopRank = Power.call.rank
  | .mk (.binary op l r') sp ty => .inl ⟨op, l, r', sp, ty, rfl⟩
  | .mk (.unary _ _) _ _ | .mk (.str _) _ _ | .mk (.num _) _ _ | .mk (.ident _) _ _
  | .mk (.func _ _ _) _ _ | .mk (.block _) _ _ | .mk (.call _ _ _) _ _ | .mk (.cond _ _ _) _ _
  | .mk (.list _) _ _ | .mk (.matchOn _ _) _ _ | .mk (.case _ _) _ _ | .mk (.letIn _ _) _ _
  | .mk (.assign _ _) _ _ | .mk (.construct _ _) _ _ | .mk (.pattern _ _) _ _ => .inr rfl

theorem loopRank_le (r : Node) : r.loopRank ≤ Power.call.rank := by
  rcases loopRank_cases r with ⟨op, l, r', sp, ty, rfl⟩ | h
  · exact Power.rank_le_call _
  · exact h.le

/-- A right operand printed without parentheses binds more strongly than its operator. -/
theorem loopRank_of_right {r : Node} {P : Power} (hP : P.rank < Power.call.rank)
    (h : r.parenthesisedUnder P true = false) : P.rank < r.loopRank := by
  rcases loopRank_cases r with ⟨op, l, r', sp, ty, rfl⟩ | hr
  · simp only [parenthesisedUnder, power?, Bool.or_eq_false_iff, decide_eq_false_iff_not,
      Bool.true_and, beq_eq_false_iff_ne] at h
    simp only [loopRank]
    omega
  · rw [hr]
    exact hP

/-- A left operand printed without parentheses binds at least as strongly as its operator. -/
theorem loopRank_of_left {l : Node} {P : Power} (hP : P.rank ≤ Power.call.rank)
    (h : l.parenthesisedUnder P false = false) : P.rank ≤ l.loopRank := by
  rcases loopRank_cases l with ⟨op, l', r', sp, ty, rfl⟩ | hl
  · simp only [parenthesisedUnder, power?, Bool.or_eq_false_iff, decide_eq_false_iff_not,
      Bool.false_and, and_true] at h
    simp only [loopRank]
    omega
  · rw [hl]
    exact hP

/-- The operand of a prefix operator printed without parentheses is no binary operation. -/
theorem loopRank_of_operand {o : Node} (ho : o.Printable)
    (h : o.parenthesisedUnder .unary false = false) : Power.unary.rank < o.loopRank := by
  rcases loopRank_cases o with ⟨op, l, r, sp, ty, rfl⟩ | hl
  · have hop := (Power.rank_of_isBinary ho.binary_inv.1).2
    simp only [parenthesisedUnder, power?, Bool.or_eq_false_iff, decide_eq_false_iff_not,
      Bool.false_and, and_true] at h
    omega
  · rw [hl]
    decide

/-! ## Steps of the extension loop -/

namespace Extends

variable {n l : Node} {b : Bool}

theorem sizeOf_lt (h : n.Extends l b) : sizeOf l < sizeOf n := by
  rcases h with ⟨op, r, sp, ty, rfl, -⟩ | ⟨args, d, sp, ty, rfl, -⟩ <;> simp <;> omega

theorem pieces (h : n.Extends l b) : ∃ more, n.pieces = parenthesise b l.pieces ++ more := by
  rcases h with ⟨op, r, sp, ty, rfl, rfl⟩ | ⟨args, d, sp, ty, rfl, rfl⟩
  · exact ⟨_, by rw [Node.pieces, formPieces]⟩
  · exact ⟨_, by rw [Node.pieces, formPieces, List.append_assoc]⟩

theorem printable (h : n.Extends l b) (hn : n.Printable) : l.Printable := by
  rcases h with ⟨op, r, sp, ty, rfl, -⟩ | ⟨args, d, sp, ty, rfl, -⟩
  · exact hn.binary_inv.2.1
  · exact hn.call_inv.1

/-- After a left part printed without parentheses comes a token that binds no more strongly
than the left part, and the extended node binds no more strongly either. -/
theorem follow (h : n.Extends l false) (hn : n.Printable) :
    ∃ q more, n.pieces = l.pieces ++ q :: more ∧ (Power.ofKind q.1).rank ≤ l.loopRank ∧
      n.loopRank ≤ l.loopRank := by
  rcases h with ⟨op, r, sp, ty, rfl, hb⟩ | ⟨args, d, sp, ty, rfl, hb⟩
  · -- the operator binds no more strongly than its left operand
    have hle := loopRank_of_left (l := l) (P := Power.ofKind op) (loopRank_le (.mk (.binary op l r) sp ty)) hb
    exact ⟨Token.mark op, _, by rw [Node.pieces, formPieces, hb]; rfl, hle, hle⟩
  · -- a callee printed without parentheses is no binary operation
    have hl : l.loopRank = Power.call.rank := by
      rcases loopRank_cases l with ⟨op, l', r', sp', ty', rfl⟩ | hl
      · simp [parenthesisedCallee] at hb
      · exact hl
    refine ⟨(.openParen, "("), listPieces args ++ [(.closeParen, ")")], ?_, by rw [hl]; rfl,
      by rw [hl]; rfl⟩
    rw [Node.pieces, formPieces, hb, parenthesise_false, List.append_assoc, List.cons_append]

end Extends

end Node

namespace Parse

namespace Spine

variable {X E : Node} {w : Bool}

/-- Every printed tree is reached so from the node its reading starts with. -/
theorem «exists» {E : Node} (h : E.Printable) : ∃ X w, Spine X w E := by
  induction h with
  | num | ident | str | construct | list | unary => exact ⟨_, false, .seed trivial⟩
  | @binary op l r sp ty _ _ _ ihl _ =>
    cases hp : l.parenthesisedUnder (Power.ofKind op) false
    · obtain ⟨X, w, hs⟩ := ihl
      exact ⟨X, w, .step (.inl ⟨op, r, sp, ty, rfl, hp⟩) hs⟩
    · exact ⟨l, true, .group (.inl ⟨op, r, sp, ty, rfl, hp⟩)⟩
  | @call f args d sp ty _ _ ihf _ =>
    cases hp : f.parenthesisedCallee
    · obtain ⟨X, w, hs⟩ := ihf
      exact ⟨X, w, .step (.inr ⟨args, d, sp, ty, rfl, hp⟩) hs⟩
    · exact ⟨f, true, .group (.inr ⟨args, d, sp, ty, rfl, hp⟩)⟩

/-- The tokens of the tree start with those of the node read first. -/
theorem pieces (h : Spine X w E) : ∃ more, E.pieces = Node.parenthesise w X.pieces ++ more := by
  induction h with
  | seed => exact ⟨[], by simp [Node.parenthesise]⟩
  | group hx => exact hx.pieces
  | step hx _ ih =>
    obtain ⟨more, hl⟩ := ih
    obtain ⟨more', hE⟩ := hx.pieces
    exact ⟨more ++ more', by rw [hE, Node.parenthesise_false, hl, List.append_assoc]⟩

theorem sizeOf_le (h : Spine X w E) : sizeOf X ≤ sizeOf E := by
  induction h with
  | seed => exact le_refl _
  | group hx => exact le_of_lt hx.sizeOf_lt
  | step hx _ ih => exact le_trans ih (le_of_lt hx.sizeOf_lt)

/-- A node read in parentheses is a part of the tree. -/
theorem sizeOf_lt (h : Spine X true E) : sizeOf X < sizeOf E := by
  generalize hw : true = w at h
  induction h with
  | seed => exact absurd hw (by decide)
  | group hx => exact hx.sizeOf_lt
  | step hx _ ih => exact lt_trans (ih hw) hx.sizeOf_lt

theorem printable (h : Spine X w E) (hE : E.Printable) : X.Printable := by
  induction h with
  | seed => exact hE
  | group hx => exact hx.printable hE
  | step hx _ ih => exact ih (hx.printable hE)

theorem leaf (h : Spine X false E) : X.IsLeaf := by
  generalize hw : false = w at h
  induction h with
  | seed hX => exact hX
  | group => exact absurd hw (by decide)
  | step _ _ ih => exact ih hw

/-- After a node read first that a call would have to put in parentheses comes the end of the
tree or a token other than an opening parenthesis: a call of such a node would print it in
parentheses. -/
theorem after_seed (h : Spine X false E) (hE : E.Printable) (hc : X.parenthesisedCallee = true) :
    E = X ∨ ∃ q more, E.pieces = X.pieces ++ q :: more ∧ q.1 ≠ .openParen := by
  generalize hw : false = w at h
  induction h with
  | seed => exact .inl rfl
  | group => exact absurd hw (by decide)
  | step hx hs ih =>
    rcases ih (hx.printable hE) hw with rfl | ⟨q, more, hl, hq⟩
    · rcases hx with ⟨op, r, sp, ty, rfl, hb⟩ | ⟨args, d, sp, ty, rfl, hb⟩
      · -- the operator of a printed binary operation is no parenthesis
        have hop := hE.binary_inv.1
        refine .inr ⟨Token.mark op, _, by rw [Node.pieces, Node.formPieces, hb]; rfl, fun he => ?_⟩
        simp only [Token.mark] at he
        rw [he] at hop
        exact absurd hop (by decide)
      · exact absurd (hb.symm.trans hc) (by decide)
    · obtain ⟨more', hE'⟩ := hx.pieces
      refine .inr ⟨q, more ++ more', ?_, hq⟩
      rw [hE', Node.parenthesise_false, hl, List.append_assoc, List.cons_append]

end Spine

/-! ## Reading the pieces back -/

open Node

/-- Reading an expression at power `bp` from the tokens of a printed tree gives the tree back,
up to spans and types, and stops right after its tokens, when the tree binds more strongly
than `bp`, the token after its tokens does not, and the fuel covers the tokens left. -/
def ReadsBack (E : Node) : Prop :=
  ∀ (bp : Power) (s : State) (n : Nat), bp.rank < E.loopRank → Reads s.tokens s.pos E.pieces →
    (Power.ofKind (tokenAt s.tokens (s.pos + E.pieces.length)).kind).rank ≤ bp.rank →
    weight s + 4 ≤ n →
    ∃ e, (expr n bp).run s = .ok (e, { s with pos := s.pos + E.pieces.length }) ∧
      e.erase = E.erase

/-- The start of an expression reads a printed tree in parentheses as the tree. -/
theorem start_grouped {X : Node} (hX : X.Printable) (hrb : ReadsBack X) {s : State} {n : Nat}
    (hr : Reads s.tokens s.pos (parenthesise true X.pieces)) (hn : weight s + 3 ≤ n) :
    ∃ e, (start n).run s = .ok (e, { s with pos := s.pos + (parenthesise true X.pieces).length })
      ∧ e.erase = X.erase := by
  obtain ⟨hk, -, hlt⟩ := Reads.head hr
  obtain ⟨hX', hclose⟩ := reads_append.1 hr.2.2
  obtain ⟨hck, -, hclt⟩ := Reads.head hclose
  have hlen : (parenthesise true X.pieces).length = X.pieces.length + 2 := by
    simp
  obtain ⟨m, rfl⟩ : ∃ m, n = m + 2 := ⟨n - 2, by rw [weight] at hn; omega⟩
  rw [run_start_grouping hk]
  unfold grouping
  rw [run_bind_ok (run_advance_of_lt hlt)]
  obtain ⟨e, he, hee⟩ := hrb .default { s with pos := s.pos + 1 } m hX.loopRank_pos hX'
    (by rw [hck]; exact Nat.le_refl _)
    (by rw [weight_at]; rw [weight] at hn; omega)
  rw [run_bind_ok he,
    run_bind_ok (run_expect_of_kind (s := { s with pos := s.pos + 1 + X.pieces.length }) hck hclt)]
  refine ⟨e, ?_, hee⟩
  simp only [run_pure, hlen, Except.ok.injEq, Prod.mk.injEq, State.mk.injEq, true_and,
    and_true]
  omega


/-- An operand of an operator of power `P`, in parentheses where the printer puts them, is
read back at `P`. -/
theorem expr_operand {r : Node} {P : Power} {right : Bool} (hr : r.Printable) (hrb : ReadsBack r)
    (hunpar : r.parenthesisedUnder P right = false → P.rank < r.loopRank) {s : State} {n : Nat}
    (hreads : Reads s.tokens s.pos (parenthesise (r.parenthesisedUnder P right) r.pieces))
    (hfollow : (Power.ofKind (tokenAt s.tokens
      (s.pos + (parenthesise (r.parenthesisedUnder P right) r.pieces).length)).kind).rank ≤ P.rank)
    (hn : weight s + 4 ≤ n) :
    ∃ e, (expr n P).run s = .ok (e,
        { s with pos := s.pos + (parenthesise (r.parenthesisedUnder P right) r.pieces).length }) ∧
      e.erase = r.erase := by
  cases hb : r.parenthesisedUnder P right with
  | false =>
    rw [hb, parenthesise_false] at hreads hfollow
    rw [parenthesise_false]
    exact hrb P s n (hunpar hb) hreads hfollow hn
  | true =>
    rw [hb] at hreads hfollow
    -- in parentheses the start reads the group, and the loop stops at the token after it
    obtain ⟨m, rfl⟩ : ∃ m, n = m + 2 := ⟨n - 2, by omega⟩
    obtain ⟨e, he, hee⟩ := start_grouped (s := s) (n := m + 1) hr hrb hreads (by omega)
    have hstop := extend_stop (s := { s with pos := s.pos + (parenthesise true r.pieces).length })
      (n := m) (x := e) hfollow
    unfold expr
    rw [run_bind_ok he, hstop]
    exact ⟨e, rfl, hee⟩

/-- A printed tree starts with a token that no closing bracket is. -/
theorem Reads.kind_ne_of_printable {a : Node} (ha : a.Printable) {toks : Array Token} {i : Nat}
    {k : TokenKind} (hk : k ∉ startKinds) (hr : Reads toks i a.pieces) : (tokenAt toks i).kind ≠ k := by
  obtain ⟨p, ps, hps, hp⟩ := ha.pieces_head
  rw [hps] at hr
  rw [(Reads.head hr).1]
  exact fun h => hk (h ▸ hp)

/-- Items separated by commas and closed by `close` are read back by `delimited`, each by
`ReadsBack`, after the items read before them. -/
theorem delimited_reads {close : TokenKind} {text : String} (hclose : close ∉ startKinds)
    (hcomma : close ≠ .comma) (hrank : (Power.ofKind close).rank = 0) {g : Nat} :
    ∀ (args acc : List Node) (s : State) (f : Nat), (∀ a ∈ args, a.Printable ∧ ReadsBack a) →
      Reads s.tokens s.pos (listPieces args ++ [(close, text)]) →
      weight s ≤ 8 * f → weight s + 4 ≤ g →
      ∃ es, (delimited (expr g .default) close f acc).run s =
          .ok (acc.reverse ++ es, { s with pos := s.pos + (listPieces args).length + 1 }) ∧
        eraseAll es = eraseAll args
  | [], acc, s, f, _, hr, hf, _ => by
    rw [listPieces, List.nil_append] at hr
    obtain ⟨hk, -, hlt⟩ := Reads.head hr
    obtain ⟨f, rfl⟩ : ∃ f', f = f' + 1 := ⟨f - 1, by rw [weight] at hf; omega⟩
    unfold delimited
    rw [run_bind_ok (run_current s), if_pos hk, run_bind_ok (run_advance_of_lt hlt), run_pure]
    exact ⟨[], by simp [listPieces], rfl⟩
  | [a], acc, s, f, hargs, hr, hf, hg => by
    obtain ⟨ha, hrb⟩ := hargs a List.mem_cons_self
    rw [listPieces] at hr
    obtain ⟨hra, hrc⟩ := reads_append.1 hr
    obtain ⟨hk, -, hlt⟩ := Reads.head hrc
    obtain ⟨f, rfl⟩ : ∃ f', f = f' + 1 := ⟨f - 1, by rw [weight] at hf; omega⟩
    obtain ⟨e, he, hee⟩ := hrb .default s g ha.loopRank_pos hra (by simp [hk, hrank]) hg
    have heat := run_eat_of_ne (s := { s with pos := s.pos + a.pieces.length }) (k := .comma)
      (by rw [hk]; exact hcomma)
    unfold delimited
    rw [run_bind_ok (run_current s), if_neg (hra.kind_ne_of_printable ha hclose), run_bind_ok he,
      run_bind_ok heat, if_neg Bool.false_ne_true,
      run_bind_ok (run_expect_of_kind (s := { s with pos := s.pos + a.pieces.length }) hk hlt), run_pure]
    exact ⟨[e], by simp [listPieces], by simp [eraseAll, hee]⟩
  | a :: a' :: as, acc, s, f, hargs, hr, hf, hg => by
    obtain ⟨ha, hrb⟩ := hargs a List.mem_cons_self
    rw [listPieces.eq_3 a (a' :: as) (List.cons_ne_nil _ _), List.append_assoc] at hr
    obtain ⟨hra, hrc⟩ := reads_append.1 hr
    obtain ⟨hk, -, hlt⟩ := Reads.head hrc
    obtain ⟨f, rfl⟩ : ∃ f', f = f' + 1 := ⟨f - 1, by rw [weight] at hf; omega⟩
    obtain ⟨e, he, hee⟩ := hrb .default s g ha.loopRank_pos hra
      (by simp [hk, Power.ofKind, Power.rank]) hg
    -- the items after the comma, with `e` gathered
    obtain ⟨es, hes, hese⟩ := delimited_reads (g := g) hclose hcomma hrank (a' :: as) (e :: acc)
      { s with pos := s.pos + a.pieces.length + 1 } f (fun b hb => hargs b (List.mem_cons_of_mem _ hb))
      hrc.2.2 (by rw [weight_at]; rw [weight] at hf; omega) (by rw [weight_at]; rw [weight] at hg; omega)
    unfold delimited
    rw [run_bind_ok (run_current s), if_neg (hra.kind_ne_of_printable ha hclose), run_bind_ok he,
      run_bind_ok (run_eat_of_kind (s := { s with pos := s.pos + a.pieces.length }) hk hlt), if_pos rfl,
      hes]
    refine ⟨e :: es, ?_, by simp [eraseAll, hee, hese]⟩
    simp only [List.reverse_cons, List.append_assoc, List.cons_append, List.nil_append,
      listPieces.eq_3 a (a' :: as) (List.cons_ne_nil _ _), List.length_append, List.length_cons]
    congr 3
    omega

/-- Arguments in parentheses are read back, each by `ReadsBack`. -/
theorem arguments_reads {args : List Node} (hargs : ∀ a ∈ args, a.Printable ∧ ReadsBack a)
    {s : State} {n : Nat}
    (hr : Reads s.tokens s.pos ((.openParen, "(") :: listPieces args ++ [(.closeParen, ")")]))
    (hn : weight s + 2 ≤ n) :
    ∃ es, (arguments n).run s = .ok (es, { s with pos := s.pos + (listPieces args).length + 2 }) ∧
      eraseAll es = eraseAll args := by
  obtain ⟨hk, -, hlt⟩ := Reads.head hr
  obtain ⟨m, rfl⟩ : ∃ m, n = m + 1 := ⟨n - 1, by omega⟩
  obtain ⟨es, hes, hese⟩ := delimited_reads (g := m) (by decide) (by decide) rfl args []
    { s with pos := s.pos + 1 } m hargs hr.2.2 (by rw [weight_at]; rw [weight] at hn; omega)
    (by rw [weight_at]; rw [weight] at hn; omega)
  unfold arguments
  rw [run_bind_ok (run_expect_of_kind (s := s) hk hlt), hes]
  refine ⟨es, ?_, hese⟩
  simp only [List.reverse_nil, List.nil_append]
  congr 3
  omega


/-! ## The start of a reading -/

theorem Power.rank_ofKind_le_unary {k : TokenKind} (h : k ≠ .openParen) :
    (Power.ofKind k).rank ≤ Power.unary.rank := by
  unfold Power.ofKind
  split <;> simp_all [Power.rank]

theorem isCapitalised_of_constructor {t : Token} (hk : t.kind = .identifier)
    (hc : Token.isConstructor t.value = true) : t.isCapitalised = true := by
  simp only [Token.isConstructor, Bool.and_eq_true] at hc
  simp only [Token.isCapitalised, hk, beq_self_eq_true, Bool.true_and]
  split
  · next d _ h => simpa [h] using hc.2
  · next h => simp [h] at hc

theorem isCapitalised_of_variable {t : Token} (hx : Token.isVariable t.value = true) :
    t.isCapitalised = false := by
  simp only [Token.isVariable, Bool.and_eq_true] at hx
  simp only [Token.isCapitalised, Bool.and_eq_false_iff]
  right
  split
  · next d _ h => simpa [h] using hx.2
  · rfl

/-- An integer literal that a 64-bit signed integer holds reads back from its text. -/
theorem Literal.ofText?_int_text {n : Nat} (h : n < Nat.pow 2 63) :
    Literal.ofText? (Literal.int n).text = some (.int n) := by
  have htext : (Literal.int n).text = n.repr := rfl
  have hdot : (Nat.toDigits 10 n).contains '.' = false := by
    rw [Bool.eq_false_iff]
    intro hc
    have := Nat.isDigit_of_mem_toDigits (b := 10) (by decide) (by decide) (List.contains_iff_mem.1 hc)
    exact absurd this (by decide)
  have hval : (Nat.toDigits 10 n).foldl (fun n c => 10 * n + (c.toNat - '0'.toNat)) 0 = n := by
    rw [← Nat.ofDigitChars_eq_foldl, Nat.ofDigitChars_ten_toDigits]
  unfold Literal.ofText?
  rw [htext, Nat.toList_repr]
  simp only [hdot, hval, Bool.false_eq_true, if_false]
  rw [if_pos h]

section Start

variable {s : State} {n : Nat} {sp : Span} {ty : Option Ty}

theorem start_number {m : Nat} (hm : m < Nat.pow 2 63)
    (hr : Reads s.tokens s.pos (Node.mk (.num (.int m)) sp ty).pieces) (hn : weight s + 3 ≤ n) :
    ∃ e, (start n).run s = .ok (e, { s with pos := s.pos + 1 }) ∧
      e.erase = (Node.mk (.num (.int m)) sp ty).erase := by
  obtain ⟨hk, hv, hlt⟩ := Reads.head hr
  obtain ⟨n, rfl⟩ : ∃ k, n = k + 2 := ⟨n - 2, by omega⟩
  rw [run_start_primary hk (.inl rfl),
    run_primary_number hk (by rw [hv, Literal.ofText?_int_text hm]) hlt]
  exact ⟨_, rfl, rfl⟩

theorem start_name {x : String} (hx : Token.isVariable x = true)
    (hr : Reads s.tokens s.pos (Node.mk (.ident x) sp ty).pieces) (hn : weight s + 3 ≤ n) :
    ∃ e, (start n).run s = .ok (e, { s with pos := s.pos + 1 }) ∧
      e.erase = (Node.mk (.ident x) sp ty).erase := by
  obtain ⟨hk, hv, hlt⟩ := Reads.head hr
  obtain ⟨n, rfl⟩ : ∃ k, n = k + 2 := ⟨n - 2, by omega⟩
  rw [run_start_primary hk (.inr (.inl rfl)),
    run_primary_name hk (isCapitalised_of_variable (hv ▸ hx)) hlt, hv]
  exact ⟨_, rfl, rfl⟩

theorem start_string {v : String} (hr : Reads s.tokens s.pos (Node.mk (.str v) sp ty).pieces)
    (hn : weight s + 3 ≤ n) :
    ∃ e, (start n).run s = .ok (e, { s with pos := s.pos + 1 }) ∧
      e.erase = (Node.mk (.str v) sp ty).erase := by
  obtain ⟨hk, hv, hlt⟩ := Reads.head hr
  obtain ⟨n, rfl⟩ : ∃ k, n = k + 2 := ⟨n - 2, by omega⟩
  rw [run_start_primary hk (.inr (.inr rfl)), run_primary_string hk hlt, hv]
  exact ⟨_, rfl, rfl⟩

theorem start_construct {c : String} {args : List Node} (hc : Token.isConstructor c = true)
    (hargs : ∀ a ∈ args, a.Printable ∧ ReadsBack a)
    (hr : Reads s.tokens s.pos (Node.mk (.construct c args) sp ty).pieces)
    (hnext : args = [] →
      (tokenAt s.tokens (s.pos + (Node.mk (.construct c args) sp ty).pieces.length)).kind ≠
        .openParen)
    (hn : weight s + 3 ≤ n) :
    ∃ e, (start n).run s =
        .ok (e, { s with pos := s.pos + (Node.mk (.construct c args) sp ty).pieces.length }) ∧
      e.erase = (Node.mk (.construct c args) sp ty).erase := by
  rw [Node.pieces, formPieces] at hr hnext ⊢
  obtain ⟨hk, hv, hlt⟩ := Reads.head hr
  obtain ⟨n, rfl⟩ : ∃ k, n = k + 3 := ⟨n - 3, by omega⟩
  rw [run_start_primary hk (.inr (.inl rfl)),
    run_primary_constructor hk (isCapitalised_of_constructor hk (hv ▸ hc))]
  unfold constructorExpr
  rw [run_bind_ok (run_expect_of_kind hk hlt), run_bind_ok (run_current _)]
  dsimp only
  -- with no arguments the name stands alone; otherwise they follow in parentheses
  cases args with
  | nil =>
    have hnext := hnext rfl
    simp only [List.isEmpty_nil, if_true, List.length_singleton] at hnext ⊢
    rw [if_neg hnext, run_bind_ok (run_pure _ _)]
    obtain ⟨sp', hsp⟩ := run_spanFrom (tokenAt s.tokens s.pos).span.start
      { s with pos := s.pos + 1 }
    rw [run_bind_ok hsp, run_pure, hv]
    exact ⟨_, rfl, rfl⟩
  | cons a as =>
    simp only [List.isEmpty_cons, Bool.false_eq_true, if_false] at hr ⊢
    obtain ⟨es, hes, hese⟩ := arguments_reads (s := { s with pos := s.pos + 1 }) (n := n) hargs hr.2.2
      (by rw [weight_at]; rw [weight] at hn; omega)
    rw [if_pos (Reads.head hr.2.2).1, run_bind_ok hes]
    obtain ⟨sp', hsp⟩ := run_spanFrom (tokenAt s.tokens s.pos).span.start
      { s with pos := s.pos + 1 + (listPieces (a :: as)).length + 2 }
    rw [run_bind_ok hsp, run_pure, hv]
    refine ⟨.mk (.construct c es) sp' none, ?_, ?_⟩
    · simp only [List.length_cons, List.length_append, List.length_nil, Except.ok.injEq,
        Prod.mk.injEq, State.mk.injEq, true_and, and_true]
      omega
    · simp [Node.erase, Form.erase, hese]

theorem start_list {xs : List Node} (hxs : ∀ a ∈ xs, a.Printable ∧ ReadsBack a)
    (hr : Reads s.tokens s.pos (Node.mk (.list xs) sp ty).pieces) (hn : weight s + 3 ≤ n) :
    ∃ e, (start n).run s = .ok (e, { s with pos := s.pos + (Node.mk (.list xs) sp ty).pieces.length })
      ∧ e.erase = (Node.mk (.list xs) sp ty).erase := by
  rw [Node.pieces, formPieces] at hr ⊢
  obtain ⟨hk, -, hlt⟩ := Reads.head hr
  obtain ⟨n, rfl⟩ : ∃ k, n = k + 2 := ⟨n - 2, by omega⟩
  obtain ⟨es, hes, hese⟩ := delimited_reads (g := n) (by decide) (by decide) rfl xs []
    { s with pos := s.pos + 1 } n hxs hr.2.2 (by rw [weight_at]; rw [weight] at hn; omega)
    (by rw [weight_at]; rw [weight] at hn; omega)
  rw [run_start_list hk]
  unfold listExpr
  rw [run_bind_ok (run_advance_of_lt hlt)]
  dsimp only
  rw [run_bind_ok hes]
  obtain ⟨sp', hsp⟩ := run_spanFrom (tokenAt s.tokens s.pos).span.start
    { s with pos := s.pos + 1 + (listPieces xs).length + 1 }
  rw [run_bind_ok hsp, run_pure]
  refine ⟨.mk (.list es) sp' none, ?_, ?_⟩
  · simp only [List.reverse_nil, List.nil_append, List.length_cons, List.length_append,
      List.length_nil, Except.ok.injEq, Prod.mk.injEq, State.mk.injEq, true_and, and_true]
    omega
  · simp [Node.erase, Form.erase, hese]

theorem start_unary {op : TokenKind} {o : Node} (hop : op = .dash ∨ op = .not)
    (ho : o.Printable) (hrb : ReadsBack o)
    (hr : Reads s.tokens s.pos (Node.mk (.unary op o) sp ty).pieces)
    (hnext : (tokenAt s.tokens (s.pos + (Node.mk (.unary op o) sp ty).pieces.length)).kind ≠
      .openParen)
    (hn : weight s + 3 ≤ n) :
    ∃ e, (start n).run s =
        .ok (e, { s with pos := s.pos + (Node.mk (.unary op o) sp ty).pieces.length }) ∧
      e.erase = (Node.mk (.unary op o) sp ty).erase := by
  rw [Node.pieces, formPieces] at hr hnext ⊢
  rw [List.length_cons, ← Nat.add_assoc, Nat.add_right_comm] at hnext ⊢
  obtain ⟨hk, -, hlt⟩ := Reads.head hr
  obtain ⟨n, rfl⟩ : ∃ k, n = k + 2 := ⟨n - 2, by omega⟩
  -- the operand is read at the power of a prefix operator
  obtain ⟨e, he, hee⟩ := expr_operand (s := { s with pos := s.pos + 1 }) (n := n) ho hrb
    (loopRank_of_operand ho) hr.2.2
    (Power.rank_ofKind_le_unary hnext)
    (by rw [weight_at]; rw [weight] at hn; omega)
  rw [run_start_unary hk hop]
  unfold prefixExpr
  rw [run_bind_ok (run_advance_of_lt hlt), run_bind_ok he, run_pure]
  exact ⟨_, rfl, by simp [Node.erase, Form.erase, hee, hk]⟩

/-- The start of an expression reads a printed tree that is neither an operation nor a call,
when the trees inside it read back. -/
theorem start_leaf {X : Node} (hX : X.Printable) (hleaf : X.IsLeaf)
    (ih : ∀ E', sizeOf E' < sizeOf X → E'.Printable → ReadsBack E')
    (hr : Reads s.tokens s.pos X.pieces)
    (hnext : X.parenthesisedCallee = true →
      (tokenAt s.tokens (s.pos + X.pieces.length)).kind ≠ .openParen)
    (hn : weight s + 3 ≤ n) :
    ∃ e, (start n).run s = .ok (e, { s with pos := s.pos + X.pieces.length }) ∧
      e.erase = X.erase := by
  cases hX with
  | num hm => exact start_number hm hr hn
  | ident hx => exact start_name hx hr hn
  | str => exact start_string hr hn
  | construct hc hargs =>
    refine start_construct hc (fun a ha => ⟨hargs a ha, ih a ?_ (hargs a ha)⟩) hr
      (fun h => hnext (by simp [parenthesisedCallee, h])) hn
    have := List.sizeOf_lt_of_mem ha
    simp only [Node.mk.sizeOf_spec, Form.construct.sizeOf_spec]
    omega
  | list hxs =>
    refine start_list (fun a ha => ⟨hxs a ha, ih a ?_ (hxs a ha)⟩) hr hn
    have := List.sizeOf_lt_of_mem ha
    simp only [Node.mk.sizeOf_spec, Form.list.sizeOf_spec]
    omega
  | unary hop ho =>
    refine start_unary hop ho (ih _ ?_ ho) hr (hnext rfl) hn
    simp only [Node.mk.sizeOf_spec, Form.unary.sizeOf_spec]
    omega
  | binary => exact hleaf.elim
  | call => exact hleaf.elim

end Start


/-! ## The extension loop -/

/-- **One turn of the extension loop.** After a node that stands for `l`, the loop reads the
rest of a binary operation or a call whose left part is `l`. -/
theorem extend_step {E l x : Node} {b : Bool} {bp : Power} {p₀ : Nat} {s : State} {n : Nat}
    (ih : ∀ E', sizeOf E' < sizeOf E → E'.Printable → ReadsBack E')
    (hE : E.Printable) (hx : E.Extends l b) (hbp : bp.rank < E.loopRank)
    (hr : Reads s.tokens p₀ E.pieces)
    (hfollow : (Power.ofKind (tokenAt s.tokens (p₀ + E.pieces.length)).kind).rank ≤ E.loopRank)
    (hpos : s.pos = p₀ + (parenthesise b l.pieces).length) (hxl : x.erase = l.erase)
    (hn : weight s + 4 ≤ n) :
    ∃ e n', (extend n bp x).run s = (extend n' bp e).run { s with pos := p₀ + E.pieces.length } ∧
      e.erase = E.erase ∧ weight { s with pos := p₀ + E.pieces.length } + 4 ≤ n' := by
  rcases hx with ⟨op, r, sp, ty, rfl, rfl⟩ | ⟨args, d, sp, ty, rfl, rfl⟩
  · -- a binary operator: its right operand is read at the operator's power
    obtain ⟨hop, -, hr'⟩ := hE.binary_inv
    rw [Node.pieces, formPieces] at hr hfollow ⊢
    obtain ⟨-, hrop⟩ := reads_append.1 hr
    rw [← hpos] at hrop
    obtain ⟨hk, -, hlt⟩ := Reads.head hrop
    have hend : p₀ + (parenthesise (l.parenthesisedUnder (Power.ofKind op) false) l.pieces ++
        Token.mark op :: parenthesise (r.parenthesisedUnder (Power.ofKind op) true) r.pieces).length =
        s.pos + 1 + (parenthesise (r.parenthesisedUnder (Power.ofKind op) true) r.pieces).length := by
      simp only [List.length_append, List.length_cons, hpos]
      omega
    rw [hend] at hfollow ⊢
    obtain ⟨k, rfl⟩ : ∃ k, n = k + 2 := ⟨n - 2, by omega⟩
    have hrank : (Power.ofKind op).rank < Power.call.rank :=
      lt_trans (Power.rank_of_isBinary hop).2 (by decide)
    obtain ⟨e, he, hee⟩ := expr_operand (s := { s with pos := s.pos + 1 }) (n := k) hr'
      (ih r (by simp only [Node.mk.sizeOf_spec, Form.binary.sizeOf_spec]; omega) hr')
      (loopRank_of_right hrank) hrop.2.2 hfollow (by rw [weight_at]; rw [weight] at hn; omega)
    have hbin : (binaryExpr (k + 1) x (Power.ofKind op)).run s =
        .ok (.mk (.binary op x e) ⟨x.span.start, e.span.stop⟩ none, { s with pos :=
          s.pos + 1 + (parenthesise (r.parenthesisedUnder (Power.ofKind op) true) r.pieces).length }) := by
      unfold binaryExpr
      rw [run_bind_ok (run_advance_of_lt hlt), hk, run_bind_ok he, run_pure]
    refine ⟨.mk (.binary op x e) ⟨x.span.start, e.span.stop⟩ none, k + 1, ?_, ?_, ?_⟩
    · rw [run_extend_binary hk (by rintro rfl; exact absurd hop (by decide)) hbp, run_bind_ok hbin]
    · simp [Node.erase, Form.erase, hxl, hee]
    · rw [weight_at]
      rw [weight] at hn
      omega
  · -- a call: the arguments follow in parentheses
    obtain ⟨-, hargs⟩ := hE.call_inv
    rw [Node.pieces, formPieces] at hr hfollow ⊢
    rw [List.append_assoc] at hr
    obtain ⟨-, hrop⟩ := reads_append.1 hr
    rw [← hpos] at hrop
    obtain ⟨hk, -, hlt⟩ := Reads.head hrop
    have hend : p₀ + (parenthesise l.parenthesisedCallee l.pieces ++
        (TokenKind.openParen, "(") :: listPieces args ++ [(TokenKind.closeParen, ")")]).length =
        s.pos + (listPieces args).length + 2 := by
      simp only [List.length_append, List.length_cons, List.length_nil, hpos]
      omega
    rw [hend]
    obtain ⟨k, rfl⟩ : ∃ k, n = k + 2 := ⟨n - 2, by omega⟩
    obtain ⟨es, hes, hese⟩ := arguments_reads (s := s) (n := k)
      (fun a ha => ⟨hargs a ha, ih a (by
        have := List.sizeOf_lt_of_mem ha
        simp only [Node.mk.sizeOf_spec, Form.call.sizeOf_spec]
        omega) (hargs a ha)⟩) hrop (by omega)
    obtain ⟨sp', hsp⟩ := run_spanFrom x.span.start
      { s with pos := s.pos + (listPieces args).length + 2 }
    have hcall : (callExpr (k + 1) x).run s =
        .ok (.mk (.call x es none) sp' none, { s with pos := s.pos + (listPieces args).length + 2 }) := by
      unfold callExpr
      rw [run_bind_ok hes, run_bind_ok hsp, run_pure]
    refine ⟨.mk (.call x es none) sp' none, k + 1, ?_, ?_, ?_⟩
    · rw [run_extend_call hk hbp, run_bind_ok hcall]
    · simp [Node.erase, Form.erase, hxl, hese]
    · rw [weight_at]
      rw [weight] at hn
      omega


/-- **The extension loop along a spine.** After a node that stands for the node read first,
the loop reads the steps of the spine one after another, up to the whole tree. -/
theorem extend_spine {X E₀ x : Node} {w : Bool} {bp : Power} {p₀ : Nat}
    (ih : ∀ E', sizeOf E' < sizeOf E₀ → E'.Printable → ReadsBack E') (hx : x.erase = X.erase) :
    ∀ {E : Node}, Spine X w E → sizeOf E ≤ sizeOf E₀ → E.Printable → bp.rank < E.loopRank →
      ∀ {s : State} {n : Nat}, Reads s.tokens p₀ E.pieces →
      (Power.ofKind (tokenAt s.tokens (p₀ + E.pieces.length)).kind).rank ≤ E.loopRank →
      s.pos = p₀ + (parenthesise w X.pieces).length → weight s + 4 ≤ n →
      ∃ e n', (extend n bp x).run s = (extend n' bp e).run { s with pos := p₀ + E.pieces.length } ∧
        e.erase = E.erase ∧ weight { s with pos := p₀ + E.pieces.length } + 4 ≤ n' := by
  intro E hs
  induction hs with
  | seed =>
    intro _ _ _ s n _ _ hpos hn
    rw [parenthesise_false] at hpos
    exact ⟨x, n, by rw [← hpos], hx, by rw [← hpos]; exact hn⟩
  | group hxE =>
    intro hsize hE hbp s n hr hfollow hpos hn
    exact extend_step (fun E' h => ih E' (by omega)) hE hxE hbp hr hfollow hpos hx hn
  | @step l E w hxE _ ihl =>
    intro hsize hE hbp s n hr hfollow hpos hn
    -- first the spine up to the left part `l`, then the step from `l` to `E`
    obtain ⟨q, more, hpieces, hq, hle⟩ := hxE.follow hE
    rw [hpieces] at hr
    obtain ⟨hrl, hrq⟩ := reads_append.1 hr
    obtain ⟨hk, -, -⟩ := Reads.head hrq
    obtain ⟨e₁, n₁, h₁, he₁, hn₁⟩ := ihl (le_of_lt (lt_of_lt_of_le hxE.sizeOf_lt hsize))
      (hxE.printable hE) (lt_of_lt_of_le hbp hle) hrl (by rw [hk]; exact hq) hpos hn
    rw [← hpieces] at hr
    obtain ⟨e₂, n₂, h₂, he₂, hn₂⟩ := extend_step (s := { s with pos := p₀ + l.pieces.length })
      (fun E' h => ih E' (by omega)) hE hxE hbp hr hfollow (by rw [parenthesise_false]) he₁ hn₁
    exact ⟨e₂, n₂, h₁.trans h₂, he₂, hn₂⟩

/-- **Every printed tree reads back**, by strong induction on its size: the start of the
reading gives the node read first, the extension loop the steps of the spine, and the loop
stops at the token after the tree. -/
theorem readsBack : ∀ (k : Nat) (E : Node), sizeOf E < k → E.Printable → ReadsBack E
  | 0, _, h, _ => absurd h (Nat.not_lt_zero _)
  | k + 1, E, hk, hE => by
    have ih : ∀ E', sizeOf E' < sizeOf E → E'.Printable → ReadsBack E' :=
      fun E' h' => readsBack k E' (by omega)
    intro bp s n hbp hr hfollow hn
    obtain ⟨X, w, hs⟩ := Spine.exists hE
    have hX := hs.printable hE
    obtain ⟨more, hmore⟩ := hs.pieces
    have hrX : Reads s.tokens s.pos (parenthesise w X.pieces) :=
      (reads_append.1 (hmore ▸ hr)).1
    obtain ⟨m, rfl⟩ : ∃ m, n = m + 1 := ⟨n - 1, by omega⟩
    -- the start reads the node read first
    obtain ⟨x, hx, hxe⟩ : ∃ x, (start m).run s =
        .ok (x, { s with pos := s.pos + (parenthesise w X.pieces).length }) ∧ x.erase = X.erase := by
      cases w with
      | false =>
        refine start_leaf hX hs.leaf (fun E' h' => ih E' (lt_of_lt_of_le h' hs.sizeOf_le)) hrX
          (fun hc => ?_) (by omega)
        -- a node that a call would put in parentheses is not followed by a parenthesis
        rcases hs.after_seed hE hc with hEX | ⟨q, more', hq, hne⟩
        · subst hEX
          intro hp
          rw [hp] at hfollow
          exact absurd (lt_of_lt_of_le hbp (loopRank_le E)) (Nat.not_lt.2 hfollow)
        · rw [hq] at hr
          rw [(Reads.head (reads_append.1 hr).2).1]
          exact hne
      | true => exact start_grouped hX (ih X hs.sizeOf_lt hX) hrX (by omega)
    -- the loop goes on with less fuel, since the start read at least one token
    have hL : 1 ≤ (parenthesise w X.pieces).length := by
      obtain ⟨p, ps, hps, -⟩ := hX.pieces_head
      cases w <;> simp [hps]
    have hlt : s.pos + 1 < s.tokens.size := by
      obtain ⟨p, ps, hps, -⟩ := hE.pieces_head
      rw [hps] at hr
      exact (Reads.head hr).2.2
    obtain ⟨e, n', hrun, hee, hn'⟩ := extend_spine
      (s := { s with pos := s.pos + (parenthesise w X.pieces).length }) (n := m) ih hxe hs le_rfl hE
      hbp hr (le_trans hfollow hbp.le) rfl (by rw [weight_at]; rw [weight] at hn; omega)
    obtain ⟨n'', rfl⟩ : ∃ k, n' = k + 1 := ⟨n' - 1, by omega⟩
    have hstop := extend_stop (s := { s with pos := s.pos + E.pieces.length }) (n := n'') (x := e)
      hfollow
    unfold expr
    rw [run_bind_ok hx, hrun, hstop]
    exact ⟨e, rfl, hee⟩


/-! ## Reading a program -/

section Program

variable {toks : Array Token} {l : List (TokenKind × String)}

/-- The kind and value of the token at an index, read off the kinds and values of the list. -/
theorem tokenAt_of_map (h : toks.toList.map (fun t => (t.kind, t.value)) = l) {i : Nat}
    (hi : i < l.length) : ((tokenAt toks i).kind, (tokenAt toks i).value) = l[i] := by
  have hsize : toks.size = l.length := by rw [← h, List.length_map, Array.length_toList]
  have hmin : min i (toks.size - 1) = i := by omega
  have hi' : i < toks.size := by omega
  subst h
  simp [tokenAt, hmin, Array.getElem?_eq_getElem hi']

/-- A list of tokens reads what its kinds and values spell, up to a part that more tokens
follow. -/
theorem reads_of_map (h : toks.toList.map (fun t => (t.kind, t.value)) = l) :
    ∀ (ps : List (TokenKind × String)) {i : Nat} {qs : List (TokenKind × String)},
      l.drop i = ps ++ qs → qs ≠ [] → Reads toks i ps
  | [], _, _, _, _ => trivial
  | p :: ps, i, qs, hd, hq => by
    have hsize : toks.size = l.length := by rw [← h, List.length_map, Array.length_toList]
    have hlen := congrArg List.length hd
    have hqs : 0 < qs.length := List.length_pos_iff.2 hq
    simp only [List.length_drop, List.length_append, List.length_cons] at hlen
    have hi : i < l.length := by omega
    rw [List.drop_eq_getElem_cons hi, List.cons_append, List.cons.injEq] at hd
    exact ⟨by omega, by rw [tokenAt_of_map h hi, hd.1], reads_of_map h ps hd.2 hq⟩

/-- Tokens that end with the end mark are read as they are. -/
theorem withEnd_of_map
    (h : toks.toList.map (fun t => (t.kind, t.value)) = l ++ [(TokenKind.eof, "EOF")]) :
    withEnd toks = toks := by
  have hlast := congrArg List.getLast? h
  rw [List.getLast?_map, List.getLast?_concat, Array.getLast?_toList] at hlast
  obtain ⟨t, ht, hk⟩ := Option.map_eq_some_iff.1 hlast
  simp only [Prod.mk.injEq] at hk
  unfold withEnd
  rw [ht]
  dsimp only
  rw [if_pos hk.1]

/-- An item that starts as a printed tree does is an expression, with an optional semicolon. -/
theorem run_item_of_start {s : State} {f : Nat}
    (hk : (tokenAt s.tokens s.pos).kind ∈ Node.startKinds) :
    (item (f + 1)).run s = (do let e ← expr f .default; let _ ← eat .semicolon; pure [e]).run s := by
  unfold item
  rw [run_bind_ok (run_current s)]
  split <;> simp_all [Node.startKinds]

/-- The item loop over tokens that hold one expression and then the end mark reads the
expression. -/
theorem run_programItems_single {s s' : State} {e : Node} {f : Nat}
    (hk : (tokenAt s.tokens s.pos).kind ∈ Node.startKinds)
    (he : (expr f .default).run s = .ok (e, s'))
    (heof : (tokenAt s'.tokens s'.pos).kind = .eof) :
    (programItems (f + 2) []).run s = .ok ([e], s') := by
  have hitem : (item (f + 1)).run s = .ok ([e], s') := by
    rw [run_item_of_start hk, run_bind_ok he, run_bind_ok (run_eat_of_ne (by rw [heof]; decide)),
      run_pure]
  unfold programItems
  rw [run_bind_ok (run_current s),
    if_neg (fun h => by rw [h] at hk; exact absurd hk (by decide)), run_bind_ok hitem]
  unfold programItems
  rw [run_bind_ok (run_current s'), if_pos heof, run_pure]
  rfl

/-- Tokens that spell a printed tree and then the end mark read as a program of that tree. -/
theorem program_reads {E : Node} (hE : E.Printable)
    (hmap : toks.toList.map (fun t => (t.kind, t.value)) = E.pieces ++ [(TokenKind.eof, "EOF")]) :
    ∃ prog, program toks = .ok prog ∧ prog.body.erase = .mk (.block [E.erase]) ⟨0, 0⟩ none := by
  have hsize : toks.size = E.pieces.length + 1 := by
    simpa using congrArg List.length hmap
  have hr : Reads toks 0 E.pieces := reads_of_map hmap E.pieces List.drop_zero (by simp)
  have heof : (tokenAt toks E.pieces.length).kind = .eof := by
    have := tokenAt_of_map hmap (i := E.pieces.length) (by simp)
    simp only [List.getElem_append_right (Nat.le_refl _), Nat.sub_self, List.getElem_cons_zero,
      Prod.mk.injEq] at this
    exact this.1
  have hstart : (tokenAt toks 0).kind ∈ Node.startKinds := by
    obtain ⟨p, ps, hps, hp⟩ := hE.pieces_head
    rw [hps] at hr
    rw [(Reads.head hr).1]
    exact hp
  -- the fuel of the reading covers the item loop, the item and the expression
  have hfuel : fuelFor toks = (16 * (toks.size + 1) - 2) + 2 := by
    unfold fuelFor
    omega
  obtain ⟨e, he, hee⟩ := readsBack _ E (Nat.lt_succ_self _) hE .default ⟨toks, 0, Decls.initial, []⟩
    (16 * (toks.size + 1) - 2) hE.loopRank_pos hr (by simp [heof, Power.ofKind, Power.rank])
    (by simp only [weight]; omega)
  simp only [Nat.zero_add] at he
  obtain ⟨sp, hsp⟩ := run_spanFrom 0 ⟨toks, E.pieces.length, Decls.initial, []⟩
  refine ⟨⟨.mk (.block [e]) sp none, Decls.initial⟩, ?_, by simp [Node.erase, Form.erase, eraseAll, hee]⟩
  unfold program
  dsimp only
  rw [withEnd_of_map hmap, hfuel, run_bind_ok (run_programItems_single hstart he heof),
    run_bind_ok hsp]
  rfl

end Program

end Parse

/-- **Reading a printed tree gives it back.** The printed text of a tree of the printed class
scans to tokens that read as a program whose body is a block of that tree alone, up to spans,
types and the implementations that calls reach. -/
theorem Node.program_print {E : Node} (hE : E.Printable) :
    ∃ toks prog, Token.scan E.print = .ok toks ∧ Parse.program toks = .ok prog ∧
      prog.body.erase = .mk (.block [E.erase]) ⟨0, 0⟩ none := by
  -- the scan gives the tokens of the tree and the end mark, and the reader reads them back
  obtain ⟨toks, hscan, hmap⟩ := hE.scan_print
  obtain ⟨prog, hprog, hbody⟩ := Parse.program_reads hE hmap
  exact ⟨toks, prog, hscan, hprog, hbody⟩

/-- The printed text `Some ( - x ) * ( y + 1 )` reads back as the tree it was printed from. -/
theorem program_print_grouped_product :
    (Node.mk (.binary .star
      (.mk (.construct "Some" [.mk (.unary .dash (.mk (.ident "x") ⟨0, 0⟩ none)) ⟨0, 0⟩ none]) ⟨0, 0⟩ none)
      (.mk (.binary .plus (.mk (.ident "y") ⟨0, 0⟩ none) (.mk (.num (.int 1)) ⟨0, 0⟩ none)) ⟨0, 0⟩ none))
      ⟨0, 0⟩ none).Printable ∧
    ∃ toks prog, Token.scan (Node.mk (.binary .star
      (.mk (.construct "Some" [.mk (.unary .dash (.mk (.ident "x") ⟨0, 0⟩ none)) ⟨0, 0⟩ none]) ⟨0, 0⟩ none)
      (.mk (.binary .plus (.mk (.ident "y") ⟨0, 0⟩ none) (.mk (.num (.int 1)) ⟨0, 0⟩ none)) ⟨0, 0⟩ none))
      ⟨0, 0⟩ none).print = .ok toks ∧ Parse.program toks = .ok prog ∧
      prog.body.erase = .mk (.block [(Node.mk (.binary .star
        (.mk (.construct "Some" [.mk (.unary .dash (.mk (.ident "x") ⟨0, 0⟩ none)) ⟨0, 0⟩ none]) ⟨0, 0⟩ none)
        (.mk (.binary .plus (.mk (.ident "y") ⟨0, 0⟩ none) (.mk (.num (.int 1)) ⟨0, 0⟩ none)) ⟨0, 0⟩ none))
        ⟨0, 0⟩ none).erase]) ⟨0, 0⟩ none := by
  have hE : (Node.mk (.binary .star
      (.mk (.construct "Some" [.mk (.unary .dash (.mk (.ident "x") ⟨0, 0⟩ none)) ⟨0, 0⟩ none]) ⟨0, 0⟩ none)
      (.mk (.binary .plus (.mk (.ident "y") ⟨0, 0⟩ none) (.mk (.num (.int 1)) ⟨0, 0⟩ none)) ⟨0, 0⟩ none))
      ⟨0, 0⟩ none).Printable :=
    .binary (by decide)
      (.construct (by decide) (by simp only [List.mem_singleton, forall_eq]; exact .unary (.inl rfl) (.ident (by decide))))
      (.binary (by decide) (.ident (by decide)) (.num (by decide)))
  exact ⟨hE, Node.program_print hE⟩

end Verve
